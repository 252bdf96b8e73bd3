import MiniScheme.Proofs.Scanning

/-!
# `MiniScheme.Proofs.LexicalGrammar`: a text is its tokens and the gaps between

This file says what tokens are without a lexer, and that the lexer finds them.

Between tokens there may be a gap of blanks and comments (`IsGap`). What may
stand as a token depends on what follows it (`IsToken`): words are as long as
they can be, so a word stops where no more of it can follow. A text decomposes
(`Decomposes`) into tokens, each behind its gap, up to its end or up to a string
that is never closed.

`lex_decomposes` says that every text decomposes in exactly one way, and that
the lexer gives the tokens of that one. It is put together from three facts:
the lexer takes a gap or a token as a whole (`lexFrom_gap`, `lexFrom_token`),
there is always a gap or a token to take (`exists_decomposes`), and never a
choice (`Decomposes.unique`).
-/

set_option autoImplicit false

namespace MiniScheme

/-! ### Gaps, strings and words -/

/-- The text goes on with the second part and the first part is blanks and
comments. A comment ends before a newline or at the end of the text. -/
inductive IsGap : (gap rest : List Char) → Prop
  | nil {rest : List Char} : IsGap [] rest
  | blank {c : Char} {gap rest : List Char} (blank : Text.isBlank c = true)
      (behind : IsGap gap rest) : IsGap (c :: gap) rest
  | comment {body gap rest : List Char} (line : '\n' ∉ body)
      (ends : ∀ c ∈ (gap ++ rest).head?, c = '\n') (behind : IsGap gap rest) :
      IsGap (';' :: (body ++ gap)) rest

/-- Characters of a string: no double quote among them, unless a backslash
escapes it. -/
inductive IsStringBody : List Char → Prop
  | nil : IsStringBody []
  | plain {c : Char} {cs : List Char} (notQuote : c ≠ '"') (notBackslash : c ≠ '\\')
      (behind : IsStringBody cs) : IsStringBody (c :: cs)
  | escape (c : Char) {cs : List Char} (behind : IsStringBody cs) :
      IsStringBody ('\\' :: c :: cs)

/-- No double quote closes a string with these characters behind its start. A
backslash may be the last one. -/
def IsUnclosed (cs : List Char) : Prop :=
  ∃ body, IsStringBody body ∧ (cs = body ∨ cs = body ++ ['\\'])

/-- A word that stands before this text is not longer. -/
def StopsWord (rest : List Char) : Prop := ∀ c ∈ rest.head?, isWordChar c = false

/-! ### Tokens -/

/-- What the token is, before the rest of the text. -/
inductive IsToken : Token → (rest : List Char) → Prop
  | quote {rest : List Char} : IsToken ⟨.quote, "'"⟩ rest
  | lparen {rest : List Char} : IsToken ⟨.lparen, "("⟩ rest
  | rparen {rest : List Char} : IsToken ⟨.rparen, ")"⟩ rest
  | vector {rest : List Char} : IsToken ⟨.vector, "#("⟩ rest
  /-- From a double quote to the first one that is not escaped. -/
  | string {body rest : List Char} (inside : IsStringBody body) :
      IsToken ⟨.string, String.ofList ('"' :: (body ++ ['"']))⟩ rest
  | boolean {word : String} {rest : List Char} (spelling : word ∈ booleanWords)
      (stops : StopsWord rest) : IsToken ⟨.boolean, word⟩ rest
  /-- Any other word. A `#` before a parenthesis is none. -/
  | symbol {word : String} {rest : List Char} (nonempty : word ≠ "")
      (chars : ∀ c ∈ word.toList, isWordChar c = true) (stops : StopsWord rest)
      (notBoolean : word ∉ booleanWords) (notVector : ¬ (word = "#" ∧ rest.head? = some '(')) :
      IsToken ⟨.symbol, word⟩ rest

/-! ### Texts -/

/-- A text taken apart: its tokens, each behind its gap, the gap behind the
last token, and the string that is never closed, if the text ends in one. -/
structure Decomposition where
  parts : List (List Char × Token)
  last : List Char
  unclosed : Option (List Char)

namespace Decomposition

/-- With one token more in front. -/
def push (gap : List Char) (t : Token) (d : Decomposition) : Decomposition :=
  { d with parts := (gap, t) :: d.parts }

def tokens (d : Decomposition) : List Token := d.parts.map Prod.snd

/-- The tokens and all gaps. -/
def front (d : Decomposition) : List Char :=
  (d.parts.flatMap fun part => part.1 ++ part.2.text.toList) ++ d.last

/-- All characters in their order. -/
def chars (d : Decomposition) : List Char := d.front ++ d.unclosed.getD []

/-- The fault of the text: a string that is never closed, at its place. -/
def fault (d : Decomposition) : Option ReadError :=
  d.unclosed.map fun _ => .openString d.front.length

end Decomposition

/-- The characters are taken apart in this way. -/
inductive Decomposes : List Char → Decomposition → Prop
  | done {gap : List Char} (between : IsGap gap []) : Decomposes gap ⟨[], gap, none⟩
  | unclosed {gap inside : List Char} (between : IsGap gap ('"' :: inside))
      (never : IsUnclosed inside) :
      Decomposes (gap ++ '"' :: inside) ⟨[], gap, some ('"' :: inside)⟩
  | token {gap rest : List Char} {t : Token} {d : Decomposition}
      (between : IsGap gap (t.text.toList ++ rest)) (valid : IsToken t rest)
      (behind : Decomposes rest d) :
      Decomposes (gap ++ (t.text.toList ++ rest)) (d.push gap t)

/-- No character is lost, and none is moved. -/
theorem Decomposes.chars_eq {cs : List Char} {d : Decomposition} (h : Decomposes cs d) :
    d.chars = cs := by
  induction h with
  | done => simp [Decomposition.chars, Decomposition.front]
  | unclosed => simp [Decomposition.chars, Decomposition.front]
  | token _ _ _ ih =>
      rw [← ih]
      simp [Decomposition.chars, Decomposition.front, Decomposition.push]

/-! ### The lexer takes gaps and tokens as a whole -/

/-- What becomes of the characters, read from between two tokens. -/
def lexFrom (position : Nat) (before : List Token) (cs : List Char) :
    List Token × Option ReadError :=
  (Scan.feedAll ⟨.between, position, before⟩ cs).finish

open Scan (feedAll feedAll_append feedAll_cons feedAll_word)

/-- Inside of a comment only a newline counts. -/
theorem feedAll_comment {body : List Char} (hline : '\n' ∉ body) :
    ∀ position before, feedAll ⟨.comment, position, before⟩ body
      = ⟨.comment, position + body.length, before⟩ := by
  induction body with
  | nil => intro position before; rfl
  | cons c body ih =>
      intro position before
      obtain ⟨hc, hbody⟩ := not_or.mp (mt List.mem_cons.mpr hline)
      have hfeed : Scan.feed ⟨.comment, position, before⟩ c = ⟨.comment, position + 1, before⟩ := by
        simp [Scan.feed, Scan.next, Ne.symm hc]
      rw [feedAll_cons, hfeed, ih hbody]
      simp
      omega

/-- Where a comment ends, nothing of it is left. -/
theorem finish_comment {cs : List Char} (hends : ∀ c ∈ cs.head?, c = '\n') (position : Nat)
    (before : List Token) :
    (feedAll ⟨.comment, position, before⟩ cs).finish = lexFrom position before cs := by
  cases cs with
  | nil => rfl
  | cons c cs =>
      obtain rfl : c = '\n' := hends c rfl
      rfl

theorem lexFrom_gap {gap rest : List Char} (h : IsGap gap rest) :
    ∀ position before, lexFrom position before (gap ++ rest)
      = lexFrom (position + gap.length) before rest := by
  induction h with
  | nil => intro position before; rfl
  | @blank c gap rest hblank _ ih =>
      intro position before
      have hfeed : Scan.feed ⟨.between, position, before⟩ c = ⟨.between, position + 1, before⟩ := by
        simp [Scan.feed, Scan.next, Scan.start, hblank]
      have hstep : lexFrom position before (c :: gap ++ rest)
          = lexFrom (position + 1) before (gap ++ rest) := by
        rw [lexFrom, List.cons_append, feedAll_cons, hfeed]
        rfl
      rw [hstep, ih, List.length_cons, Nat.add_assoc, Nat.add_comm 1]
  | @comment body gap rest hline hends _ ih =>
      intro position before
      have hstep : lexFrom position before (';' :: (body ++ gap) ++ rest)
          = (feedAll ⟨.comment, position + 1, before⟩ (body ++ (gap ++ rest))).finish := by
        rw [List.cons_append, List.append_assoc]
        rfl
      rw [hstep, feedAll_append, feedAll_comment hline, finish_comment hends, ih]
      simp
      congr 1
      omega

/-- Inside of a string an unescaped character is read. -/
theorem feedAll_stringBody {body : List Char} (h : IsStringBody body) (first : Nat) :
    ∀ read position before, feedAll ⟨.string first read false, position, before⟩ body
      = ⟨.string first (body.reverse ++ read) false, position + body.length, before⟩ := by
  induction h with
  | nil => intro read position before; rfl
  | @plain c cs hquote hbackslash _ ih =>
      intro read position before
      have hfeed : Scan.feed ⟨.string first read false, position, before⟩ c
          = ⟨.string first (c :: read) false, position + 1, before⟩ := by
        simp [Scan.feed, Scan.next, hquote, hbackslash]
      rw [feedAll_cons, hfeed, ih]
      simp
      omega
  | @escape c cs _ ih =>
      intro read position before
      have hfeed : feedAll ⟨.string first read false, position, before⟩ ['\\', c]
          = ⟨.string first (c :: '\\' :: read) false, position + 2, before⟩ := by
        simp [feedAll, Scan.feed, Scan.next]
      show feedAll _ (['\\', c] ++ cs) = _
      rw [feedAll_append, hfeed, ih]
      simp
      omega

/-- A string that is never closed is the fault of its text. -/
theorem lexFrom_unclosed {inside : List Char} (h : IsUnclosed inside) (position : Nat)
    (before : List Token) :
    lexFrom position before ('"' :: inside)
      = (before.reverse, some (.openString position)) := by
  obtain ⟨body, hbody, hend⟩ := h
  have hstart : lexFrom position before ('"' :: inside)
      = (feedAll ⟨.string position ['"'] false, position + 1, before⟩ inside).finish := rfl
  rw [hstart]
  rcases hend with rfl | rfl
  · rw [feedAll_stringBody hbody]
    rfl
  · rw [feedAll_append, feedAll_stringBody hbody]
    rfl

theorem lexFrom_string {body : List Char} (h : IsStringBody body) (rest : List Char)
    (position : Nat) (before : List Token) :
    lexFrom position before ('"' :: (body ++ ['"']) ++ rest)
      = lexFrom (position + (body.length + 2))
          (⟨.string, String.ofList ('"' :: (body ++ ['"']))⟩ :: before) rest := by
  have hstart : lexFrom position before ('"' :: (body ++ ['"']) ++ rest)
      = (feedAll ⟨.string position ['"'] false, position + 1, before⟩
          (body ++ '"' :: rest)).finish := by
    rw [List.cons_append, List.append_assoc]
    rfl
  have hclose : Scan.feed ⟨.string position (body.reverse ++ ['"']) false,
      position + 1 + body.length, before⟩ '"'
      = ⟨.between, position + (body.length + 2),
          ⟨.string, String.ofList ('"' :: (body ++ ['"']))⟩ :: before⟩ := by
    simp [Scan.feed, Scan.next, Scan.textOf]
    omega
  rw [hstart, feedAll_append, feedAll_stringBody h, feedAll_cons, hclose]
  rfl

/-- A word is a token where it stops, unless it is the `#` of a vector. -/
theorem lexFrom_word {c : Char} {cs rest : List Char} (hword : ∀ d ∈ c :: cs, isWordChar d = true)
    (hstops : StopsWord rest) (hvector : ¬ (c :: cs = ['#'] ∧ rest.head? = some '('))
    (position : Nat) (before : List Token) :
    lexFrom position before (c :: cs ++ rest)
      = lexFrom (position + (c :: cs).length)
          (Token.ofWord (String.ofList (c :: cs)) :: before) rest := by
  have hread : feedAll ⟨.between, position, before⟩ (c :: cs)
      = ⟨.word (cs.reverse ++ [c]), position + (c :: cs).length, before⟩ := by
    rw [feedAll_cons, Scan.feed_of_isWordChar (hword c List.mem_cons_self),
      feedAll_word cs fun d hd => hword d (List.mem_cons_of_mem c hd)]
    simp
    omega
  have htext : Scan.textOf (cs.reverse ++ [c]) = String.ofList (c :: cs) := by simp [Scan.textOf]
  rw [lexFrom, feedAll_append, hread]
  cases rest with
  | nil =>
      show ((Token.ofWord (Scan.textOf (cs.reverse ++ [c])) :: before).reverse, none) = _
      rw [htext]
      rfl
  | cons d rest =>
      have hstop : isWordChar d = false := hstops d rfl
      have hhash : ¬ (cs.reverse ++ [c] = ['#'] ∧ d = '(') := by
        rintro ⟨hcs, rfl⟩
        refine hvector ⟨?_, rfl⟩
        rw [← List.reverse_inj]
        simpa using hcs
      -- The character behind the word is read as if the word were complete.
      have hfeed : Scan.feed ⟨.word (cs.reverse ++ [c]), position + (c :: cs).length, before⟩ d
          = Scan.feed ⟨.between, position + (c :: cs).length,
              Token.ofWord (String.ofList (c :: cs)) :: before⟩ d := by
        simp [Scan.feed, Scan.next, hstop, hhash, htext]
      rw [feedAll_cons, hfeed]
      rfl

/-! ### How a token starts -/

/-- The tokens that are one character. -/
def marks : List Token := [⟨.quote, "'"⟩, ⟨.lparen, "("⟩, ⟨.rparen, ")"⟩]

/-- What a token is made of, with the two kinds of words as one. -/
inductive TokenShape : Token → (rest : List Char) → Prop
  | mark {t : Token} {rest : List Char} (mem : t ∈ marks) : TokenShape t rest
  | string {body rest : List Char} (inside : IsStringBody body) :
      TokenShape ⟨.string, String.ofList ('"' :: (body ++ ['"']))⟩ rest
  | vector {rest : List Char} : TokenShape ⟨.vector, "#("⟩ rest
  | word {c : Char} {cs rest : List Char} (chars : ∀ d ∈ c :: cs, isWordChar d = true)
      (stops : StopsWord rest) (notVector : ¬ (c :: cs = ['#'] ∧ rest.head? = some '(')) :
      TokenShape (Token.ofWord (String.ofList (c :: cs))) rest

theorem mem_marks {t : Token} (h : t ∈ marks) :
    t = ⟨.quote, "'"⟩ ∨ t = ⟨.lparen, "("⟩ ∨ t = ⟨.rparen, ")"⟩ := by
  simpa [marks] using h

/-- A word is a boolean or any other word by its spelling. -/
theorem IsToken.word {word : String} {rest : List Char} (hnonempty : word ≠ "")
    (hchars : ∀ c ∈ word.toList, isWordChar c = true) (hstops : StopsWord rest)
    (hvector : ¬ (word = "#" ∧ rest.head? = some '(')) : IsToken (Token.ofWord word) rest := by
  rw [Token.ofWord]
  split
  · rename_i hboolean
    exact .boolean hboolean hstops
  · rename_i hboolean
    exact .symbol hnonempty hchars hstops hboolean hvector

theorem isWordChar_of_mem_booleanWords {word : String} (h : word ∈ booleanWords) :
    ∀ c ∈ word.toList, isWordChar c = true := by
  have hall : ∀ word ∈ booleanWords, word.toList.all isWordChar = true := by decide +kernel
  exact List.all_eq_true.mp (hall word h)

theorem IsToken.shape {t : Token} {rest : List Char} (h : IsToken t rest) : TokenShape t rest := by
  have hword : ∀ {word : String}, word ≠ "" → (∀ c ∈ word.toList, isWordChar c = true) →
      StopsWord rest → ¬ (word = "#" ∧ rest.head? = some '(') →
      TokenShape (Token.ofWord word) rest := by
    intro word hnonempty hchars hstops hvector
    obtain ⟨c, cs, hcs⟩ := List.exists_cons_of_ne_nil (mt String.toList_eq_nil_iff.mp hnonempty)
    rw [hcs] at hchars
    obtain rfl : word = String.ofList (c :: cs) := by rw [← hcs, String.ofList_toList]
    exact .word hchars hstops fun hhash => hvector ⟨by rw [hhash.1], hhash.2⟩
  cases h with
  | quote => exact .mark (by simp [marks])
  | lparen => exact .mark (by simp [marks])
  | rparen => exact .mark (by simp [marks])
  | vector => exact .vector
  | string inside => exact .string inside
  | @boolean word _ spelling stops =>
      have hkind : Token.ofWord word = ⟨.boolean, word⟩ := if_pos spelling
      rw [← hkind]
      refine hword ?_ (isWordChar_of_mem_booleanWords spelling) stops ?_
      · rintro rfl
        exact absurd spelling (by decide)
      · rintro ⟨rfl, -⟩
        exact absurd spelling (by decide)
  | @symbol word _ nonempty chars stops notBoolean notVector =>
      have hkind : Token.ofWord word = ⟨.symbol, word⟩ := if_neg notBoolean
      rw [← hkind]
      exact hword nonempty chars stops notVector

@[simp] theorem text_ofWord (word : String) : (Token.ofWord word).text = word := by
  rw [Token.ofWord]
  split <;> rfl

/-- A token starts with a character that no gap starts with. -/
theorem TokenShape.exists_cons {t : Token} {rest : List Char} (h : TokenShape t rest) :
    ∃ c cs, t.text.toList = c :: cs ∧ Text.isBlank c = false ∧ c ≠ ';' := by
  cases h with
  | mark mem =>
      rcases mem_marks mem with rfl | rfl | rfl
      · exact ⟨'\x27', [], rfl, by decide, by decide⟩
      · exact ⟨'(', [], rfl, by decide, by decide⟩
      · exact ⟨')', [], rfl, by decide, by decide⟩
  | string => exact ⟨'"', _, String.toList_ofList, by decide, by decide⟩
  | vector => exact ⟨'#', ['('], rfl, by decide, by decide⟩
  | word chars =>
      have hc := chars _ List.mem_cons_self
      simp only [isWordChar, isDelimiter, Bool.and_eq_true, Bool.not_eq_true',
        Bool.or_eq_false_iff, decide_eq_false_iff_not] at hc
      exact ⟨_, _, by rw [text_ofWord, String.toList_ofList], hc.1, hc.2.2⟩

/-- The lexer takes a token as a whole. -/
theorem lexFrom_token {t : Token} {rest : List Char} (h : IsToken t rest) (position : Nat)
    (before : List Token) :
    lexFrom position before (t.text.toList ++ rest)
      = lexFrom (position + t.text.toList.length) (t :: before) rest := by
  cases h.shape with
  | mark mem => rcases mem_marks mem with rfl | rfl | rfl <;> rfl
  | string inside =>
      rw [String.toList_ofList, lexFrom_string inside]
      simp
  | vector => rfl
  | word chars stops notVector =>
      rw [text_ofWord, String.toList_ofList]
      exact lexFrom_word chars stops notVector position before

/-- The lexer finds the tokens of a text that is taken apart, and its fault. -/
theorem lexFrom_of_decomposes {cs : List Char} {d : Decomposition} (h : Decomposes cs d) :
    ∀ position before, lexFrom position before cs
      = (before.reverse ++ d.tokens,
          d.unclosed.map fun _ => .openString (position + d.front.length)) := by
  induction h with
  | @done gap between =>
      intro position before
      have hgap := lexFrom_gap between position before
      rw [List.append_nil] at hgap
      rw [hgap]
      simp [lexFrom, Scan.finish, feedAll, Decomposition.tokens]
  | unclosed between never =>
      intro position before
      rw [lexFrom_gap between, lexFrom_unclosed never]
      simp [Decomposition.tokens, Decomposition.front]
  | token between valid _ ih =>
      intro position before
      rw [lexFrom_gap between, lexFrom_token valid, ih]
      simp [Decomposition.tokens, Decomposition.front, Decomposition.push, Nat.add_assoc]

/-! ### There is always a gap or a token to take -/

/-- No gap starts here. -/
def EndsGap (rest : List Char) : Prop := ∀ c ∈ rest.head?, Text.isBlank c = false ∧ c ≠ ';'

/-- Every text starts with as many characters of one kind as it can. -/
theorem exists_span (p : Char → Bool) (cs : List Char) :
    ∃ front rest, cs = front ++ rest ∧ (∀ c ∈ front, p c = true) ∧
      ∀ c ∈ rest.head?, p c = false := by
  induction cs with
  | nil => exact ⟨[], [], rfl, by simp, by simp⟩
  | cons c cs ih =>
      cases hc : p c with
      | false =>
          refine ⟨[], c :: cs, rfl, by simp, fun d hd => ?_⟩
          obtain rfl : c = d := by simpa using hd
          exact hc
      | true =>
          obtain ⟨front, rest, rfl, hfront, hrest⟩ := ih
          refine ⟨c :: front, rest, rfl, fun d hd => ?_, hrest⟩
          rcases List.mem_cons.mp hd with rfl | hd
          · exact hc
          · exact hfront d hd

theorem exists_gap (n : Nat) : ∀ cs : List Char, cs.length ≤ n →
    ∃ gap rest, cs = gap ++ rest ∧ IsGap gap rest ∧ EndsGap rest := by
  induction n with
  | zero =>
      intro cs hcs
      obtain rfl := List.length_eq_zero_iff.mp (Nat.le_zero.mp hcs)
      exact ⟨[], [], rfl, .nil, by simp [EndsGap]⟩
  | succ n ih =>
      intro cs hcs
      cases cs with
      | nil => exact ⟨[], [], rfl, .nil, by simp [EndsGap]⟩
      | cons c cs =>
          rw [List.length_cons] at hcs
          by_cases hblank : Text.isBlank c = true
          · obtain ⟨gap, rest, rfl, hgap, hends⟩ := ih cs (by omega)
            exact ⟨c :: gap, rest, rfl, .blank hblank hgap, hends⟩
          by_cases hcomment : c = ';'
          · -- The comment goes on to the next newline, and behind it comes another gap.
            obtain ⟨body, behind, rfl, hbody, hbehind⟩ := exists_span (fun c => c ≠ '\n') cs
            rw [List.length_append] at hcs
            obtain ⟨gap, rest, rfl, hgap, hends⟩ := ih behind (by omega)
            subst hcomment
            refine ⟨';' :: (body ++ gap), rest, by simp, .comment (fun hmem => ?_)
              (fun c hc => ?_) hgap, hends⟩
            · simpa using hbody _ hmem
            · simpa using hbehind c hc
          · refine ⟨[], c :: cs, rfl, .nil, fun d hd => ?_⟩
            obtain rfl : c = d := by simpa using hd
            exact ⟨by simpa using hblank, hcomment⟩

/-- Behind the start of a string there is the quote that closes it, or there is
none. -/
theorem closed_or_unclosed (n : Nat) : ∀ cs : List Char, cs.length ≤ n →
    (∃ body rest, cs = body ++ '"' :: rest ∧ IsStringBody body) ∨ IsUnclosed cs := by
  induction n with
  | zero =>
      intro cs hcs
      obtain rfl := List.length_eq_zero_iff.mp (Nat.le_zero.mp hcs)
      exact .inr ⟨[], .nil, .inl rfl⟩
  | succ n ih =>
      intro cs hcs
      cases cs with
      | nil => exact .inr ⟨[], .nil, .inl rfl⟩
      | cons c cs =>
          rw [List.length_cons] at hcs
          by_cases hquote : c = '"'
          · exact .inl ⟨[], cs, by rw [hquote]; rfl, .nil⟩
          by_cases hbackslash : c = '\\'
          · subst hbackslash
            cases cs with
            | nil => exact .inr ⟨[], .nil, .inr rfl⟩
            | cons d cs =>
                rw [List.length_cons] at hcs
                obtain ⟨body, rest, rfl, hbody⟩ | ⟨body, hbody, rfl | rfl⟩ := ih cs (by omega)
                · exact .inl ⟨_, rest, rfl, .escape d hbody⟩
                · exact .inr ⟨_, .escape d hbody, .inl rfl⟩
                · exact .inr ⟨_, .escape d hbody, .inr rfl⟩
          · obtain ⟨body, rest, rfl, hbody⟩ | ⟨body, hbody, rfl | rfl⟩ := ih cs (by omega)
            · exact .inl ⟨_, rest, rfl, .plain hquote hbackslash hbody⟩
            · exact .inr ⟨_, .plain hquote hbackslash hbody, .inl rfl⟩
            · exact .inr ⟨_, .plain hquote hbackslash hbody, .inr rfl⟩

/-- Where no gap starts, a token does, or a string that is never closed. -/
theorem exists_token {c : Char} {cs : List Char} (hends : EndsGap (c :: cs)) :
    (∃ t rest, c :: cs = t.text.toList ++ rest ∧ IsToken t rest) ∨ c = '"' ∧ IsUnclosed cs := by
  obtain ⟨hblank, hcomment⟩ := hends c rfl
  by_cases hquote : c = '\x27'
  · exact .inl ⟨_, cs, by rw [hquote]; rfl, .quote⟩
  by_cases hlparen : c = '('
  · exact .inl ⟨_, cs, by rw [hlparen]; rfl, .lparen⟩
  by_cases hrparen : c = ')'
  · exact .inl ⟨_, cs, by rw [hrparen]; rfl, .rparen⟩
  by_cases hstring : c = '"'
  · obtain ⟨body, rest, rfl, hbody⟩ | hunclosed := closed_or_unclosed _ cs (Nat.le_refl _)
    · exact .inl ⟨_, rest, by simp [hstring], .string hbody⟩
    · exact .inr ⟨hstring, hunclosed⟩
  -- Any other character starts a word.
  have hc : isWordChar c = true := by
    simp [isWordChar, isDelimiter, hblank, hquote, hlparen, hrparen, hstring, hcomment]
  obtain ⟨word, rest, rfl, hword, hstops⟩ := exists_span isWordChar cs
  have hchars : ∀ d ∈ c :: word, isWordChar d = true := by simpa [hc] using hword
  by_cases hvector : c :: word = ['#'] ∧ rest.head? = some '('
  · obtain ⟨hhash, hparen⟩ := hvector
    obtain ⟨rest, rfl⟩ : ∃ tail, rest = '(' :: tail := List.head?_eq_some_iff.mp hparen
    obtain ⟨rfl, rfl⟩ := (List.cons.injEq _ _ _ _).mp hhash
    exact .inl ⟨_, rest, rfl, .vector⟩
  · refine .inl ⟨Token.ofWord (String.ofList (c :: word)), rest, by simp, .word ?_ ?_ hstops ?_⟩
    · simp [← String.toList_inj]
    · rwa [String.toList_ofList]
    · rintro ⟨hhash, hparen⟩
      refine hvector ⟨?_, hparen⟩
      rw [← String.toList_inj, String.toList_ofList] at hhash
      exact hhash

theorem exists_decomposes (n : Nat) : ∀ cs : List Char, cs.length ≤ n →
    ∃ d, Decomposes cs d := by
  induction n with
  | zero =>
      intro cs hcs
      obtain rfl := List.length_eq_zero_iff.mp (Nat.le_zero.mp hcs)
      exact ⟨_, .done .nil⟩
  | succ n ih =>
      intro cs hcs
      obtain ⟨gap, rest, rfl, hgap, hends⟩ := exists_gap _ cs (Nat.le_refl _)
      cases rest with
      | nil =>
          rw [List.append_nil]
          exact ⟨_, .done hgap⟩
      | cons c rest =>
          obtain ⟨t, behind, hrest, ht⟩ | ⟨rfl, hunclosed⟩ := exists_token hends
          · obtain ⟨e, es, htext, -⟩ := ht.shape.exists_cons
            rw [hrest] at hgap ⊢
            rw [hrest, htext] at hcs
            obtain ⟨d, hd⟩ := ih behind (by simp at hcs; omega)
            exact ⟨_, .token hgap ht hd⟩
          · exact ⟨_, .unclosed hgap hunclosed⟩

/-! ### There is never a choice -/

/-- A text starts in one way with all characters of one kind. -/
theorem span_unique {p : Char → Bool} {front front' rest rest' : List Char}
    (hfront : ∀ c ∈ front, p c = true) (hfront' : ∀ c ∈ front', p c = true)
    (hrest : ∀ c ∈ rest.head?, p c = false) (hrest' : ∀ c ∈ rest'.head?, p c = false)
    (h : front ++ rest = front' ++ rest') : front = front' ∧ rest = rest' := by
  induction front generalizing front' with
  | nil =>
      cases front' with
      | nil => exact ⟨rfl, h⟩
      | cons c front' =>
          have hc := hfront' c List.mem_cons_self
          rw [hrest c (by rw [List.nil_append] at h; simp [h])] at hc
          cases hc
  | cons c front ih =>
      cases front' with
      | nil =>
          have hc := hfront c List.mem_cons_self
          rw [hrest' c (by rw [List.nil_append] at h; simp [← h])] at hc
          cases hc
      | cons d front' =>
          simp only [List.cons_append, List.cons.injEq] at h
          obtain ⟨rfl, h⟩ := h
          obtain ⟨rfl, rfl⟩ := ih (fun e he => hfront e (List.mem_cons_of_mem c he))
            (fun e he => hfront' e (List.mem_cons_of_mem c he)) h
          exact ⟨rfl, rfl⟩

/-- Where no gap starts, the only gap is the empty one. -/
theorem IsGap.eq_nil {gap rest : List Char} (h : IsGap gap rest) (hends : EndsGap (gap ++ rest)) :
    gap = [] := by
  cases h with
  | nil => rfl
  | blank hblank =>
      have hfirst := (hends _ rfl).1
      cases hfirst.symm.trans hblank
  | comment => exact absurd rfl (hends ';' rfl).2

theorem IsGap.unique {gap rest : List Char} (h : IsGap gap rest) :
    ∀ {gap' rest' : List Char}, IsGap gap' rest' → EndsGap rest → EndsGap rest' →
      gap ++ rest = gap' ++ rest' → gap = gap' ∧ rest = rest' := by
  induction h with
  | nil =>
      intro gap' rest' h' hends _ heq
      rw [List.nil_append] at heq
      obtain rfl := h'.eq_nil (heq ▸ hends)
      exact ⟨rfl, heq⟩
  | blank hblank behind ih =>
      intro gap' rest' h' hends hother heq
      cases h' with
      | nil => cases (IsGap.blank hblank behind).eq_nil (heq ▸ hother)
      | blank _ behind' =>
          simp only [List.cons_append, List.cons.injEq] at heq
          obtain ⟨rfl, heq⟩ := heq
          obtain ⟨rfl, rfl⟩ := ih behind' hends hother heq
          exact ⟨rfl, rfl⟩
      | comment =>
          obtain ⟨rfl, -⟩ := List.cons.inj heq
          exact absurd hblank (by decide)
  | @comment body gap rest line ends behind ih =>
      intro gap' rest' h' hends hother heq
      cases h' with
      | nil => cases (IsGap.comment line ends behind).eq_nil (heq ▸ hother)
      | blank hblank =>
          obtain ⟨rfl, -⟩ := List.cons.inj heq
          exact absurd hblank (by decide)
      | @comment body' gap' _ line' ends' behind' =>
          simp only [List.cons_append, List.cons.injEq, true_and, List.append_assoc] at heq
          have hline : ∀ {cs : List Char}, '\n' ∉ cs → ∀ c ∈ cs, decide (c ≠ '\n') = true :=
            fun hcs c hc => decide_eq_true fun hn => hcs (hn ▸ hc)
          obtain ⟨rfl, hbehind⟩ := span_unique (hline line) (hline line')
            (fun c hc => by simp [ends c hc]) (fun c hc => by simp [ends' c hc]) heq
          obtain ⟨rfl, rfl⟩ := ih behind' hends hother hbehind
          exact ⟨rfl, rfl⟩

/-- Only one quote closes a string. -/
theorem IsStringBody.unique {body : List Char} (h : IsStringBody body) :
    ∀ {body' rest rest' : List Char}, IsStringBody body' →
      body ++ '"' :: rest = body' ++ '"' :: rest' → body = body' ∧ rest = rest' := by
  induction h with
  | nil =>
      intro body' rest rest' h' heq
      cases h' with
      | nil => exact ⟨rfl, by simpa using heq⟩
      | plain hquote => exact absurd (List.cons.inj heq).1.symm hquote
      | escape => exact absurd (List.cons.inj heq).1 (by decide)
  | plain hquote hbackslash _ ih =>
      intro body' rest rest' h' heq
      cases h' with
      | nil => exact absurd (List.cons.inj heq).1 hquote
      | plain _ _ behind' =>
          simp only [List.cons_append, List.cons.injEq] at heq
          obtain ⟨rfl, heq⟩ := heq
          obtain ⟨rfl, rfl⟩ := ih behind' heq
          exact ⟨rfl, rfl⟩
      | escape => exact absurd (List.cons.inj heq).1 hbackslash
  | escape c _ ih =>
      intro body' rest rest' h' heq
      cases h' with
      | nil => exact absurd (List.cons.inj heq).1 (by decide)
      | plain _ hbackslash => exact absurd (List.cons.inj heq).1.symm hbackslash
      | escape c' behind' =>
          simp only [List.cons_append, List.cons.injEq, true_and] at heq
          obtain ⟨rfl, heq⟩ := heq
          obtain ⟨rfl, rfl⟩ := ih behind' heq
          exact ⟨rfl, rfl⟩

/-- A string that is closed is not unclosed. -/
theorem IsStringBody.not_isUnclosed {body : List Char} (h : IsStringBody body) :
    ∀ {rest : List Char}, ¬ IsUnclosed (body ++ '"' :: rest) := by
  -- The quote would have to stand among the characters of the unclosed string,
  -- or be its last backslash.
  have key : ∀ {body' rest : List Char}, IsStringBody body' →
      body ++ '"' :: rest ≠ body' ∧ body ++ '"' :: rest ≠ body' ++ ['\\'] := by
    induction h with
    | nil =>
        intro body' rest h'
        cases h' with
        | nil => exact ⟨by simp, by simp⟩
        | plain hquote =>
            exact ⟨fun heq => hquote (List.cons.inj heq).1.symm,
              fun heq => hquote (List.cons.inj heq).1.symm⟩
        | escape => exact ⟨by simp, by simp⟩
    | plain hquote hbackslash _ ih =>
        intro body' rest h'
        cases h' with
        | nil =>
            exact ⟨by simp, fun heq => hbackslash (List.cons.inj heq).1⟩
        | plain _ _ behind' =>
            obtain ⟨hwhole, hlast⟩ := ih behind'
            exact ⟨fun heq => hwhole (List.cons.inj heq).2,
              fun heq => hlast (List.cons.inj heq).2⟩
        | escape =>
            exact ⟨fun heq => hbackslash (List.cons.inj heq).1,
              fun heq => hbackslash (List.cons.inj heq).1⟩
    | escape c _ ih =>
        intro body' rest h'
        cases h' with
        | nil => exact ⟨by simp, by simp⟩
        | plain _ hbackslash =>
            exact ⟨fun heq => hbackslash (List.cons.inj heq).1.symm,
              fun heq => hbackslash (List.cons.inj heq).1.symm⟩
        | escape c' behind' =>
            obtain ⟨hwhole, hlast⟩ := ih behind'
            exact ⟨fun heq => hwhole (List.cons.inj (List.cons.inj heq).2).2,
              fun heq => hlast (List.cons.inj (List.cons.inj heq).2).2⟩
  rintro rest ⟨body', hbody', heq | heq⟩
  · exact (key hbody').1 heq
  · exact (key hbody').2 heq

/-- Neither marks nor strings start like a word. -/
theorem ne_of_isWordChar {c d : Char} (hc : isWordChar c = true) (hd : isWordChar d = false) :
    c ≠ d := by
  rintro rfl
  cases hc.symm.trans hd

/-- A mark is told from all other tokens by its character. -/
theorem TokenShape.eq_of_mark {t t' : Token} {rest rest' : List Char} (mem : t ∈ marks)
    (h' : TokenShape t' rest') (heq : t.text.toList ++ rest = t'.text.toList ++ rest') :
    t = t' ∧ rest = rest' := by
  cases h' with
  | mark mem' =>
      rcases mem_marks mem with rfl | rfl | rfl <;> rcases mem_marks mem' with rfl | rfl | rfl <;>
        simp_all
  | string => rcases mem_marks mem with rfl | rfl | rfl <;> simp at heq
  | vector => rcases mem_marks mem with rfl | rfl | rfl <;> simp at heq
  | word chars =>
      have hc := chars _ List.mem_cons_self
      rw [text_ofWord, String.toList_ofList] at heq
      rcases mem_marks mem with rfl | rfl | rfl
      · exact absurd (List.cons.inj heq).1.symm (ne_of_isWordChar hc (by decide))
      · exact absurd (List.cons.inj heq).1.symm (ne_of_isWordChar hc (by decide))
      · exact absurd (List.cons.inj heq).1.symm (ne_of_isWordChar hc (by decide))

/-- A word is not the opening of a vector. -/
theorem not_vector_of_word {c : Char} {cs rest rest' : List Char}
    (chars : ∀ d ∈ c :: cs, isWordChar d = true)
    (notVector : ¬ (c :: cs = ['#'] ∧ rest.head? = some '(')) :
    c :: cs ++ rest ≠ '#' :: '(' :: rest' := by
  intro heq
  simp only [List.cons_append, List.cons.injEq] at heq
  obtain ⟨rfl, hrest⟩ := heq
  cases cs with
  | nil => exact notVector ⟨rfl, by rw [← List.nil_append rest, hrest]; rfl⟩
  | cons d cs =>
      have hd := chars d (by simp)
      exact ne_of_isWordChar hd (by decide) (List.cons.inj hrest).1

/-- No token starts like one of another shape, and none is a part of another
one. -/
theorem TokenShape.unique {t t' : Token} {rest rest' : List Char} (h : TokenShape t rest)
    (h' : TokenShape t' rest') (heq : t.text.toList ++ rest = t'.text.toList ++ rest') :
    t = t' ∧ rest = rest' := by
  -- The first character tells the shapes apart, but for a word that starts with `#`.
  cases h with
  | mark mem => exact h'.eq_of_mark mem heq
  | string inside =>
      rw [String.toList_ofList] at heq
      cases h' with
      | mark mem =>
          obtain ⟨ht, hrest⟩ := (TokenShape.string inside).eq_of_mark mem
            (by rw [String.toList_ofList]; exact heq.symm)
          exact ⟨ht.symm, hrest.symm⟩
      | string inside' =>
          simp only [String.toList_ofList, List.cons_append, List.cons.injEq, true_and,
            List.append_assoc, List.nil_append] at heq
          obtain ⟨rfl, rfl⟩ := inside.unique inside' heq
          exact ⟨rfl, rfl⟩
      | vector => exact absurd (List.cons.inj heq).1 (by decide)
      | word chars =>
          rw [text_ofWord, String.toList_ofList] at heq
          exact absurd (List.cons.inj heq).1.symm
            (ne_of_isWordChar (chars _ List.mem_cons_self) (by decide))
  | vector =>
      cases h' with
      | mark mem =>
          obtain ⟨ht, hrest⟩ := TokenShape.vector.eq_of_mark mem heq.symm
          exact ⟨ht.symm, hrest.symm⟩
      | string => simp at heq
      | vector => exact ⟨rfl, (List.append_cancel_left heq)⟩
      | @word c cs _ chars _ notVector =>
          have hword : c :: cs ++ rest' = '#' :: '(' :: rest := by simpa using heq.symm
          exact absurd hword (not_vector_of_word chars notVector)
  | @word c cs _ chars stops notVector =>
      rw [text_ofWord, String.toList_ofList] at heq
      cases h' with
      | mark mem =>
          obtain ⟨ht, hrest⟩ := (TokenShape.word chars stops notVector).eq_of_mark mem
            (by rw [text_ofWord, String.toList_ofList]; exact heq.symm)
          exact ⟨ht.symm, hrest.symm⟩
      | string =>
          rw [String.toList_ofList] at heq
          exact absurd (List.cons.inj heq).1
            (ne_of_isWordChar (chars _ List.mem_cons_self) (by decide))
      | vector => exact absurd heq (not_vector_of_word chars notVector)
      | word chars' stops' =>
          rw [text_ofWord, String.toList_ofList] at heq
          obtain ⟨hword, hrest⟩ := span_unique chars chars' stops stops' heq
          rw [hword]
          exact ⟨rfl, hrest⟩

theorem endsGap_token {t : Token} {rest : List Char} (h : IsToken t rest) :
    EndsGap (t.text.toList ++ rest) := by
  obtain ⟨c, cs, htext, hc⟩ := h.shape.exists_cons
  rw [htext]
  intro d hd
  obtain rfl : c = d := by simpa using hd
  exact hc

theorem endsGap_string (cs : List Char) : EndsGap ('"' :: cs) := by
  intro c hc
  obtain rfl : '"' = c := by simpa using hc
  exact ⟨by decide, by decide⟩

/-- A string that is never closed does not start with a token. -/
theorem TokenShape.not_unclosed {t : Token} {rest inside : List Char} (h : TokenShape t rest)
    (never : IsUnclosed inside) : t.text.toList ++ rest ≠ '"' :: inside := by
  intro heq
  cases h with
  | mark mem => rcases mem_marks mem with rfl | rfl | rfl <;> simp at heq
  | string closed =>
      simp only [String.toList_ofList, List.cons_append, List.cons.injEq, true_and,
        List.append_assoc, List.nil_append] at heq
      rw [← heq] at never
      exact closed.not_isUnclosed never
  | vector => simp at heq
  | word chars =>
      rw [text_ofWord, String.toList_ofList] at heq
      exact ne_of_isWordChar (chars _ List.mem_cons_self) (by decide) (List.cons.inj heq).1

theorem IsToken.append_ne_nil {t : Token} {rest : List Char} (h : IsToken t rest) :
    t.text.toList ++ rest ≠ [] := by
  obtain ⟨c, cs, htext, -⟩ := h.shape.exists_cons
  rw [htext]
  exact List.cons_ne_nil c (cs ++ rest)

/-- A text is taken apart in one way only. -/
theorem Decomposes.unique {cs : List Char} {d : Decomposition} (h : Decomposes cs d) :
    ∀ {cs' : List Char} {d' : Decomposition}, Decomposes cs' d' → cs = cs' → d = d' := by
  have hnil : EndsGap [] := by simp [EndsGap]
  -- Both texts start with the same gap, and what comes behind it is of one kind.
  induction h with
  | @done gap between =>
      intro cs' d' h' heq
      cases h' with
      | done between' =>
          obtain ⟨rfl, -⟩ := between.unique between' hnil hnil (by simpa using heq)
          rfl
      | unclosed between' =>
          obtain ⟨-, hrest⟩ := between.unique between' hnil (endsGap_string _) (by simpa using heq)
          cases hrest
      | token between' valid =>
          obtain ⟨-, hrest⟩ := between.unique between' hnil (endsGap_token valid)
            (by simpa using heq)
          exact absurd hrest.symm valid.append_ne_nil
  | @unclosed gap inside between never =>
      intro cs' d' h' heq
      cases h' with
      | done between' =>
          obtain ⟨-, hrest⟩ := between.unique between' (endsGap_string _) hnil (by simpa using heq)
          cases hrest
      | unclosed between' =>
          obtain ⟨rfl, hrest⟩ := between.unique between' (endsGap_string _) (endsGap_string _) heq
          rw [hrest]
      | token between' valid =>
          obtain ⟨-, hrest⟩ := between.unique between' (endsGap_string _) (endsGap_token valid) heq
          exact absurd hrest.symm (valid.shape.not_unclosed never)
  | @token gap rest t d between valid _ ih =>
      intro cs' d' h' heq
      cases h' with
      | done between' =>
          obtain ⟨-, hrest⟩ := between.unique between' (endsGap_token valid) hnil
            (by simpa using heq)
          exact absurd hrest valid.append_ne_nil
      | unclosed between' never =>
          obtain ⟨-, hrest⟩ := between.unique between' (endsGap_token valid) (endsGap_string _) heq
          exact absurd hrest (valid.shape.not_unclosed never)
      | token between' valid' behind' =>
          obtain ⟨rfl, hrest⟩ := between.unique between' (endsGap_token valid)
            (endsGap_token valid') heq
          obtain ⟨rfl, hbehind⟩ := valid.shape.unique valid'.shape hrest
          rw [ih behind' hbehind]

/-- **A text is its tokens and the gaps between them, in one way only.** Every
text decomposes: into tokens, each behind a gap of blanks and comments, and
behind the last one a gap up to the end or up to a double quote that no later
one closes. All its characters are there, in their order. There is only one such
decomposition, and the lexer gives its tokens. It has a fault if and only if a
string is never closed; the fault asks for more text and tells where the string
starts. -/
theorem lex_decomposes (s : String) :
    ∃ d : Decomposition, Decomposes s.toList d ∧ (∀ d', Decomposes s.toList d' → d' = d) ∧
      d.chars = s.toList ∧ lex s = (d.tokens, d.fault) ∧
      ∀ e, (lex s).2 = some e →
        e.isIncomplete = true ∧
          e.message = "Unterminated string at " ++ toString d.front.length := by
  obtain ⟨d, hd⟩ := exists_decomposes _ s.toList (Nat.le_refl _)
  have hlex : lex s = (d.tokens, d.fault) := by
    have hfrom := lexFrom_of_decomposes hd 0 []
    simp only [Nat.zero_add, List.reverse_nil, List.nil_append] at hfrom
    exact hfrom
  refine ⟨d, hd, fun d' hd' => hd'.unique hd rfl, hd.chars_eq, hlex, fun e he => ?_⟩
  rw [hlex] at he
  obtain ⟨_, -, rfl⟩ := Option.map_eq_some_iff.mp he
  exact ⟨rfl, rfl⟩

end MiniScheme
