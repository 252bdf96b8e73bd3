import MiniScheme.Proofs.ExternalForm
import MiniScheme.Proofs.Numeral
import MiniScheme.Proofs.Parsing
import MiniScheme.Proofs.Scanning

/-!
# `MiniScheme.Proofs.WrittenTokens`: reading external forms

The external form of a readable datum is read as that datum. Between its
text and itself stand its tokens, `Datum.tokens`, another plain recursion
over the tree.

* `lexes_written`: the external form lexes to those tokens. No word runs
  into what follows, because behind every datum stands a blank or a
  closing parenthesis.
* `nextFrom_tokens`: those tokens are read as the datum, whatever forms are
  open around it, if there is room for its levels.

Both are inductions over the readable datum that treat the two places of
`Datum.Place` together. The lemmas before them do one kind of datum each.
-/

set_option autoImplicit false

namespace MiniScheme

open Datum (Readable Place)

namespace Datum

/-! ### Tokens -/

/-- The tokens of something other than a list, given its own: behind an
element it is a tail. -/
def Place.dottedTokens (ts : List Token) : Place → List Token
  | alone => ts
  | behind => ⟨.symbol, "."⟩ :: (ts ++ [⟨.rparen, ")"⟩])

mutual

/-- The tokens of the external form of a datum. -/
def tokens : Place → Datum → List Token
  | p, .number n => p.dottedTokens [⟨.symbol, n.text?.getD ""⟩]
  | p, .text t => p.dottedTokens [⟨.string, String.ofList (writtenText t)⟩]
  | p, .symbol name => p.dottedTokens [⟨.symbol, name⟩]
  | p, .boolean b => p.dottedTokens [⟨.boolean, if b then "#t" else "#f"⟩]
  | .alone, .nil => [⟨.lparen, "("⟩, ⟨.rparen, ")"⟩]
  | .behind, .nil => [⟨.rparen, ")"⟩]
  | .alone, .pair car cdr => ⟨.lparen, "("⟩ :: (tokens .alone car ++ tokens .behind cdr)
  | .behind, .pair car cdr => tokens .alone car ++ tokens .behind cdr
  | p, .vector items => p.dottedTokens (⟨.vector, "#("⟩ :: tokensItems items)

/-- The tokens of the elements of a vector and of its end. -/
def tokensItems : List Datum → List Token
  | [] => [⟨.rparen, ")"⟩]
  | d :: ds => tokens .alone d ++ tokensItems ds

end

/-! ### From characters to tokens -/

/-- What stands behind a datum ends any word before it. -/
theorem written_behind_starts (d : Datum) :
    ∃ c cs, d.written .behind = c :: cs ∧ isWordChar c = false ∧ c ≠ '(' := by
  cases d with
  | nil => exact ⟨')', _, rfl, by decide, by decide⟩
  | vector items => cases items <;> exact ⟨' ', _, rfl, by decide, by decide⟩
  | _ => exact ⟨' ', _, rfl, by decide, by decide⟩

/-- Two pieces, the second of which is a datum behind the first. -/
theorem lexes_append_behind {cs : List Char} {d : Datum} {ts us : List Token} (h : Lexes cs ts)
    (k : Lexes (d.written .behind) us) : Lexes (cs ++ d.written .behind) (ts ++ us) := by
  obtain ⟨c, ds, hd, hword, hparen⟩ := written_behind_starts d
  rw [hd] at k ⊢
  exact h.append k hword hparen

/-- A piece, and then a closing parenthesis. -/
theorem lexes_append_rparen {cs : List Char} {ts : List Token} (h : Lexes cs ts) :
    Lexes (cs ++ [')']) (ts ++ [⟨.rparen, ")"⟩]) :=
  h.append Lexes.nil.rparen (by decide) (by decide)

/-- Something other than a list lexes behind an element as it does by
itself, with a dot before it. -/
theorem lexes_dotted {cs : List Char} {ts : List Token} (h : Lexes cs ts) (p : Place) :
    Lexes (p.dotted cs) (p.dottedTokens ts) := by
  cases p with
  | alone => exact h
  | behind =>
      have hdot : Lexes ['.'] _ := Lexes.word (List.all_eq_true.mp (by decide))
      have htail : Lexes (' ' :: (cs ++ [')'])) (ts ++ [⟨.rparen, ")"⟩]) :=
        (lexes_append_rparen h).blank (by decide)
      exact (hdot.append htail (by decide) (by decide)).blank (by decide)

/-- A word that is no boolean lexes to a symbol token. -/
theorem lexes_symbol {w : String} (hne : w ≠ "") (hword : ∀ c ∈ w.toList, isWordChar c = true)
    (hbool : w ∉ booleanWords) : Lexes w.toList [⟨.symbol, w⟩] := by
  have hnil : w.toList ≠ [] := by simpa using hne
  obtain ⟨c, cs, hcs⟩ := List.exists_cons_of_ne_nil hnil
  have hlex : Lexes (c :: cs) _ := Lexes.word (by rwa [← hcs])
  rw [← hcs, String.ofList_toList, Token.ofWord, if_neg hbool] at hlex
  exact hlex

/-- A spelling of a boolean lexes to a boolean token. -/
theorem lexes_boolean {c : Char} {cs : List Char} (hword : ∀ d ∈ c :: cs, isWordChar d = true)
    (hbool : String.ofList (c :: cs) ∈ booleanWords) :
    Lexes (c :: cs) [⟨.boolean, String.ofList (c :: cs)⟩] := by
  have hlex : Lexes (c :: cs) _ := Lexes.word hword
  rwa [Token.ofWord, if_pos hbool] at hlex

/-- A digit is part of a word. -/
theorem isWordChar_of_isDigit {c : Char} (h : c.isDigit = true) : isWordChar c = true := by
  simp only [Char.isDigit, Bool.and_eq_true, decide_eq_true_eq] at h
  have hlow : 48 ≤ c.toNat := h.1
  have hhigh : c.toNat ≤ 57 := h.2
  have hblank : Text.isBlank c = false := by
    simp [Text.isBlank, Text.inRanges, Text.blankRanges]
    omega
  have hdelimiter : ∀ d : Char, d.toNat < 48 ∨ 57 < d.toNat → c ≠ d := by
    rintro d hd rfl
    omega
  simp only [isWordChar, isDelimiter, hblank, Bool.not_false, Bool.true_and, Bool.not_eq_true',
    Bool.or_eq_false_iff, decide_eq_false_iff_not]
  refine ⟨⟨⟨⟨?_, ?_⟩, ?_⟩, ?_⟩, ?_⟩ <;> exact hdelimiter _ (by decide)

/-- The text of an integer is a word. -/
theorem isWordChar_of_mem_toString (n : Int) : ∀ c ∈ (toString n).toList, isWordChar c = true := by
  intro c hc
  rw [toList_toString_int] at hc
  split at hc
  · exact isWordChar_of_isDigit (isDigit_of_mem_toDigits c hc)
  · rcases List.mem_cons.mp hc with rfl | hc
    · decide
    · exact isWordChar_of_isDigit (isDigit_of_mem_toDigits c hc)

/-- The text of an integer starts with a minus sign or a digit, which tells
it from other words. -/
theorem toString_int_ne {n : Int} {w : String}
    (hw : w.toList.head?.all fun c => c ≠ '-' ∧ c.isDigit = false) : toString n ≠ w := by
  rintro rfl
  rw [toList_toString_int] at hw
  split at hw
  · obtain ⟨c, cs, hcs⟩ :=
      List.exists_cons_of_ne_nil (Nat.toDigits_ne_nil (n := n.natAbs) (b := 10))
    have hc : c.isDigit = true :=
      isDigit_of_mem_toDigits (n := n.natAbs) c (by rw [hcs]; exact List.mem_cons_self)
    simp [hcs, hc] at hw
  · simp at hw

/-- The text of an integer lexes to a symbol token. -/
theorem lexes_int (n : Int) : Lexes (toString n).toList [⟨.symbol, toString n⟩] := by
  refine lexes_symbol (toString_int_ne (by decide)) (isWordChar_of_mem_toString n) fun hmem => ?_
  simp only [booleanWords, List.mem_cons, List.not_mem_nil, or_false] at hmem
  rcases hmem with h | h | h | h <;> exact toString_int_ne (by decide) h

/-- Inside a string, escaped characters are taken one by one and leave the
lexer inside it. -/
theorem feedAll_escaped (cs : List Char) (first : Nat) :
    ∀ (read : List Char) (position : Nat) (before : List Token), ∃ after,
      Scan.feedAll ⟨.string first read false, position, before⟩ (cs.flatMap escapedChar)
        = ⟨.string first ((cs.flatMap escapedChar).reverse ++ read) false, after, before⟩ := by
  induction cs with
  | nil => intro read position before; exact ⟨position, rfl⟩
  | cons c cs ih =>
      intro read position before
      rw [List.flatMap_cons, Scan.feedAll_append]
      -- An escaped character takes two steps, and the first one marks the second.
      by_cases hc : c = '\\' ∨ c = '"'
      · obtain ⟨after, h⟩ := ih (c :: '\\' :: read) (position + 2) before
        refine ⟨after, ?_⟩
        have htwo : Scan.feedAll ⟨.string first read false, position, before⟩ (escapedChar c)
            = ⟨.string first (c :: '\\' :: read) false, position + 2, before⟩ := by
          simp [escapedChar, hc, Scan.feedAll, Scan.feed, Scan.next]
        rw [htwo, h]
        simp [escapedChar, hc]
      · obtain ⟨after, h⟩ := ih (c :: read) (position + 1) before
        refine ⟨after, ?_⟩
        have hone : Scan.feedAll ⟨.string first read false, position, before⟩ (escapedChar c)
            = ⟨.string first (c :: read) false, position + 1, before⟩ := by
          rw [not_or] at hc
          simp [escapedChar, hc, Scan.feedAll, Scan.feed, Scan.next]
        rw [hone, h]
        simp [escapedChar, hc]

/-- The external form of a string lexes to one token. -/
theorem lexes_writtenText (t : String) :
    Lexes (writtenText t) [⟨.string, String.ofList (writtenText t)⟩] := by
  intro position before
  obtain ⟨after, h⟩ := feedAll_escaped t.toList position ['"'] (position + 1) before
  refine ⟨after + 1, ?_⟩
  -- The opening quote, the characters, and the closing quote.
  show (Scan.feedAll (Scan.feed ⟨.between, position, before⟩ '"')
    (t.toList.flatMap escapedChar ++ ['"'])).settled = _
  have hopen : Scan.feed ⟨.between, position, before⟩ '"'
      = ⟨.string position ['"'] false, position + 1, before⟩ := rfl
  rw [hopen, Scan.feedAll_append, h]
  simp [Scan.feedAll, Scan.feed, Scan.next, Scan.settled, Scan.textOf, writtenText]

/-- The elements of a vector behind one, and its end, when each of them
lexes to its tokens. -/
theorem lexes_writtenItems {ds : List Datum}
    (h : ∀ d ∈ ds, Lexes (d.written .alone) (d.tokens .alone)) :
    ∀ {cs ts}, Lexes cs ts → Lexes (cs ++ writtenItems ds) (ts ++ tokensItems ds) := by
  induction ds with
  | nil => exact lexes_append_rparen
  | cons d ds ih =>
      intro cs ts hcs
      have hrest := ih (fun e he => h e (List.mem_cons_of_mem d he)) (h d List.mem_cons_self)
      exact hcs.append (hrest.blank (by decide)) (by decide) (by decide)

/-- The external form of a readable datum lexes to its tokens. -/
theorem lexes_written {d : Datum} (h : Readable d) :
    ∀ p, Lexes (d.written p) (d.tokens p) := by
  induction h with
  | @int n short =>
      intro p
      have htext : (Number.int n).text?.getD "" = toString n := by simp [Number.text?, short]
      rw [written, tokens, htext]
      exact lexes_dotted (lexes_int n) p
  | text t => exact fun p => lexes_dotted (lexes_writtenText t) p
  | symbol h => exact fun p => lexes_dotted (lexes_symbol h.nonempty h.word h.notBoolean) p
  | boolean b =>
      intro p
      have hb : Lexes (if b then ['#', 't'] else ['#', 'f'])
          [⟨.boolean, if b then "#t" else "#f"⟩] := by
        cases b with
        | true => exact lexes_boolean (List.all_eq_true.mp (by decide)) (by decide)
        | false => exact lexes_boolean (List.all_eq_true.mp (by decide)) (by decide)
      exact lexes_dotted hb p
  | nil =>
      intro p
      cases p with
      | alone => exact Lexes.nil.rparen.lparen
      | behind => exact Lexes.nil.rparen
  | pair _ _ ihcar ihcdr =>
      intro p
      have hboth := lexes_append_behind (ihcar .alone) (ihcdr .behind)
      cases p with
      | alone => exact hboth.lparen
      | behind => exact hboth.blank (by decide)
  | @vector items _ ih =>
      intro p
      cases items with
      | nil => exact lexes_dotted Lexes.nil.rparen.vector p
      | cons d ds =>
          have hitems := lexes_writtenItems (fun e he => ih e (List.mem_cons_of_mem d he) .alone)
            (ih d List.mem_cons_self .alone)
          exact lexes_dotted hitems.vector p

/-! ### From tokens to data -/

/-- With room for its levels, the tokens of the datum are read as if it
were delivered in one step. -/
def ReadsAs (d : Datum) : Prop :=
  ∀ fault room stack ts, Awaits stack → d.nesting .alone ≤ room →
    Cursor.nextFrom fault room stack (d.tokens .alone ++ ts)
      = Cursor.proceed fault ts (deliver d room stack)

/-- Behind the elements of a list, the tokens of the datum complete the
list. -/
def ReadsBehind (d : Datum) : Prop :=
  ∀ fault room items outer ts, items ≠ [] → d.nesting .behind ≤ room →
    Cursor.nextFrom fault room (.list items :: outer) (d.tokens .behind ++ ts)
      = Cursor.proceed fault ts (deliver (chain items d) (room + 1) outer)

/-- A datum of one token is read as soon as it starts. -/
theorem readsAs_of_start {d : Datum} {kind : Token.Kind} {text : String}
    (htokens : d.tokens .alone = [⟨kind, text⟩])
    (hstart : ∀ room stack, start room stack ⟨kind, text⟩ = deliver d room stack)
    (hclose : kind ≠ .rparen) (hdot : kind = .symbol → text ≠ ".") : ReadsAs d := by
  intro fault room stack ts hstack _
  have hfeed : feed room stack ⟨kind, text⟩ = deliver d room stack := by
    rw [feed_eq_start hstack hclose hdot, hstart]
  rw [htokens, List.singleton_append, Cursor.nextFrom_cons, hfeed]
  intro e
  rw [hfeed]
  exact deliver_ne_decline d room stack e

/-- Something other than a list is read behind an element as the tail of
the list. -/
theorem ReadsAs.behind {d : Datum} (h : ReadsAs d)
    (htokens : d.tokens .behind = Place.behind.dottedTokens (d.tokens .alone))
    (hlevel : d.nesting .alone = d.nesting .behind) : ReadsBehind d := by
  intro fault room items outer ts hitems hroom
  have hdot : feed room (.list items :: outer) ⟨.symbol, "."⟩
      = .more room (.tail items :: outer) := by
    simp [feed, hitems]
  rw [htokens, Place.dottedTokens, List.cons_append, List.append_assoc,
    Cursor.nextFrom_cons _ _ _ _ _ (by rw [hdot]; rintro e ⟨⟩), hdot]
  show Cursor.nextFrom fault room (.tail items :: outer) _ = _
  rw [h fault room (.tail items :: outer) _ trivial (hlevel ▸ hroom)]
  -- The tail is there; only the end of the list may follow.
  show Cursor.nextFrom fault room (.ending items d :: outer) _ = _
  rw [List.singleton_append, Cursor.nextFrom_cons]
  · rfl
  · exact deliver_ne_decline _ _ _

/-- `()` is read in both places. -/
theorem reads_nil : ReadsAs .nil ∧ ReadsBehind .nil := by
  have hbehind : ∀ fault room items outer ts,
      Cursor.nextFrom fault room (.list items :: outer) (⟨.rparen, ")"⟩ :: ts)
        = Cursor.proceed fault ts (deliver (chain items nil) (room + 1) outer) := by
    intro fault room items outer ts
    exact Cursor.nextFrom_cons _ _ _ _ _ (deliver_ne_decline _ _ _)
  refine ⟨fun fault room stack ts hstack hroom => ?_, fun fault room items outer ts _ _ =>
    hbehind fault room items outer ts⟩
  obtain ⟨room, rfl⟩ : ∃ n, room = n + 1 := ⟨room - 1, by simp [nesting] at hroom; omega⟩
  show Cursor.nextFrom fault (room + 1) stack (⟨.lparen, "("⟩ :: ⟨.rparen, ")"⟩ :: ts) = _
  rw [nextFrom_open hstack rfl (by decide) (by decide)]
  exact hbehind fault room [] stack ts

/-- A pair is read in both places if its parts are. -/
theorem reads_pair {car cdr : Datum} (hcar : ReadsAs car) (hcdr : ReadsBehind cdr) :
    ReadsAs (.pair car cdr) ∧ ReadsBehind (.pair car cdr) := by
  -- Once the list is open, both places read the same tokens.
  have hbehind : ∀ fault room items outer ts, car.nesting .alone ≤ room →
      cdr.nesting .behind ≤ room →
      Cursor.nextFrom fault room (.list items :: outer)
          (car.tokens .alone ++ cdr.tokens .behind ++ ts)
        = Cursor.proceed fault ts (deliver (chain items (.pair car cdr)) (room + 1) outer) := by
    intro fault room items outer ts hroomcar hroomcdr
    rw [List.append_assoc, hcar fault room (.list items :: outer) _ trivial hroomcar]
    exact hcdr fault room (car :: items) outer ts (List.cons_ne_nil car items) hroomcdr
  refine ⟨fun fault room stack ts hstack hroom => ?_, fun fault room items outer ts _ hroom => ?_⟩
  · rw [nesting] at hroom
    obtain ⟨room, rfl⟩ : ∃ n, room = n + 1 := ⟨room - 1, by omega⟩
    rw [tokens, List.cons_append, nextFrom_open hstack rfl (by decide) (by decide)]
    exact hbehind fault room [] stack ts (by omega) (by omega)
  · rw [nesting] at hroom
    exact hbehind fault room items outer ts (by omega) (by omega)

/-- The elements of a vector and its end are read if each element is. -/
theorem nextFrom_tokensItems {ds : List Datum} (h : ∀ d ∈ ds, ReadsAs d) :
    ∀ fault room done outer ts, nestingItems ds ≤ room →
      Cursor.nextFrom fault room (.vector done :: outer) (tokensItems ds ++ ts)
        = Cursor.proceed fault ts (deliver (vector (done.reverse ++ ds)) (room + 1) outer) := by
  induction ds with
  | nil =>
      intro fault room done outer ts _
      rw [List.append_nil]
      exact Cursor.nextFrom_cons _ _ _ _ _ (deliver_ne_decline _ _ _)
  | cons d ds ih =>
      intro fault room done outer ts hroom
      rw [nestingItems] at hroom
      rw [tokensItems, List.append_assoc,
        h d List.mem_cons_self fault room (.vector done :: outer) _ trivial (by omega)]
      show Cursor.nextFrom fault room (.vector (d :: done) :: outer) _ = _
      rw [ih (fun e he => h e (List.mem_cons_of_mem d he)) _ _ _ _ _ (by omega)]
      simp

/-- A vector is read if its elements are. -/
theorem readsAs_vector {ds : List Datum} (h : ∀ d ∈ ds, ReadsAs d) : ReadsAs (.vector ds) := by
  intro fault room stack ts hstack hroom
  rw [nesting] at hroom
  obtain ⟨room, rfl⟩ : ∃ n, room = n + 1 := ⟨room - 1, by omega⟩
  show Cursor.nextFrom fault (room + 1) stack (⟨.vector, "#("⟩ :: (tokensItems ds ++ ts)) = _
  rw [nextFrom_open hstack rfl (by decide) (by decide)]
  exact nextFrom_tokensItems h fault room [] stack ts (by omega)

/-- Resolving the escapes of a string gives back its characters. -/
theorem unescape_flatMap (cs : List Char) : unescape (cs.flatMap escapedChar) = cs := by
  induction cs with
  | nil => rfl
  | cons c cs ih =>
      rw [List.flatMap_cons, escapedChar]
      split
      · rename_i hc
        have hesc : escaped c = c := by rcases hc with rfl | rfl <;> rfl
        simp [unescape, hesc, ih]
      · -- The character is no backslash, so it escapes nothing.
        rename_i hc
        rw [not_or] at hc
        rw [List.singleton_append, unescape, ih]
        rintro _ _ rfl
        exact absurd rfl hc.1

/-- The value of a written string is the string. -/
theorem stringValue_writtenText (t : String) : stringValue (String.ofList (writtenText t)) = t := by
  simp [stringValue, writtenText, unescape_flatMap]

/-- The tokens of a readable datum are read as that datum, by itself and
behind an element. -/
theorem nextFrom_tokens {d : Datum} (h : Readable d) : ReadsAs d ∧ ReadsBehind d := by
  induction h with
  | @int n short =>
      have htext : (Number.int n).text?.getD "" = toString n := by simp [Number.text?, short]
      have hword : ofWord (toString n) = .number (.int n) := by
        simp only [ofWord, ofWord?_toString_int short]
      have hdot : toString n ≠ "." := toString_int_ne (by decide)
      have hread : ReadsAs (.number (.int n)) := by
        refine readsAs_of_start rfl (fun room stack => ?_) (by decide) fun _ => ?_
        · simp only [start, htext, hdot, if_false, hword]
        · rwa [htext]
      exact ⟨hread, hread.behind rfl rfl⟩
  | text t =>
      have hread : ReadsAs (.text t) := by
        refine readsAs_of_start rfl (fun room stack => ?_) (by decide)
          fun h => absurd h (by decide)
        simp only [start, stringValue_writtenText]
      exact ⟨hread, hread.behind rfl rfl⟩
  | @symbol name h =>
      have hread : ReadsAs (.symbol name) := by
        refine readsAs_of_start rfl (fun room stack => ?_) (by decide) fun _ => h.notDot
        simp only [start, h.notDot, if_false, ofWord, h.notNumeral]
      exact ⟨hread, hread.behind rfl rfl⟩
  | boolean b =>
      have hread : ReadsAs (.boolean b) := by
        refine readsAs_of_start rfl (fun room stack => ?_) (by decide)
          fun h => absurd h (by decide)
        cases b <;> simp [start]
      exact ⟨hread, hread.behind rfl rfl⟩
  | nil => exact reads_nil
  | pair _ _ ihcar ihcdr => exact reads_pair ihcar.1 ihcdr.2
  | @vector items _ ih =>
      have hread : ReadsAs (.vector items) := readsAs_vector fun d hd => (ih d hd).1
      exact ⟨hread, hread.behind rfl rfl⟩

end Datum

end MiniScheme
