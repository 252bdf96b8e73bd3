import MiniScheme.Token.Lexer

/-!
# `MiniScheme.Proofs.Scanning`: lexing text piece by piece

The lexer takes one character at a time, and between tokens it remembers
nothing. So a text can be lexed in pieces, as long as no word or string
runs across a cut. `Lexes cs ts` says that the characters `cs`, read from
between two tokens, make exactly the tokens `ts`; a word at their end
counts as a token even though more characters could still belong to it.

`Lexes.append` joins two pieces when the second one starts with a
character that ends a word, and `lex_of_lexes` turns the statement about a
piece into one about a whole text. The other lemmas lex one token each,
followed by a piece: a blank, a delimiter, a vector's opening, a word and
a string.
-/

set_option autoImplicit false

namespace MiniScheme

namespace Scan

/-- The state with a word at its end made a token. -/
def settled (s : Scan) : Scan :=
  match s.mode with
  | .word read => { s with mode := .between, tokens := Token.ofWord (textOf read) :: s.tokens }
  | _ => s

/-- The end of the text settles the state. -/
theorem finish_settled (s : Scan) : s.settled.finish = s.finish := by
  obtain ⟨mode, position, tokens⟩ := s
  cases mode <;> rfl

/-- A character that ends a word settles the state, unless it is the
parenthesis that makes a `#` before it a vector. -/
theorem feed_settled (s : Scan) {c : Char} (hword : isWordChar c = false) (hparen : c ≠ '(') :
    s.settled.feed c = s.feed c := by
  obtain ⟨mode, position, tokens⟩ := s
  cases mode with
  | between | comment | string => rfl
  | word read => simp [settled, feed, next, hword, hparen]

/-- Reading one more character first. -/
theorem feedAll_cons (s : Scan) (c : Char) (cs : List Char) :
    s.feedAll (c :: cs) = (s.feed c).feedAll cs := rfl

/-- A character of words starts a word between tokens. -/
theorem feed_of_isWordChar {c : Char} (hc : isWordChar c = true) (position : Nat)
    (tokens : List Token) :
    feed ⟨.between, position, tokens⟩ c = ⟨.word [c], position + 1, tokens⟩ := by
  simp only [isWordChar, isDelimiter, Bool.and_eq_true, Bool.not_eq_true', Bool.or_eq_false_iff,
    decide_eq_false_iff_not] at hc
  simp [feed, next, start, hc]

/-- A word goes on as long as there are characters for it. -/
theorem feedAll_word (cs : List Char) (hcs : ∀ c ∈ cs, isWordChar c = true) :
    ∀ (read : List Char) (position : Nat) (tokens : List Token),
      feedAll ⟨.word read, position, tokens⟩ cs
        = ⟨.word (cs.reverse ++ read), position + cs.length, tokens⟩ := by
  induction cs with
  | nil => intro read position tokens; rfl
  | cons c cs ih =>
      intro read position tokens
      have hc := hcs c List.mem_cons_self
      have hfeed : feed ⟨.word read, position, tokens⟩ c
          = ⟨.word (c :: read), position + 1, tokens⟩ := by
        simp [feed, next, hc]
      rw [feedAll_cons, hfeed, ih fun d hd => hcs d (List.mem_cons_of_mem c hd)]
      simp
      omega

end Scan

open Scan (feedAll feedAll_append feedAll_cons feed_settled finish_settled feedAll_word)

/-- Read from between two tokens, the characters make exactly these
tokens. -/
def Lexes (cs : List Char) (ts : List Token) : Prop :=
  ∀ position before, ∃ after,
    (feedAll ⟨.between, position, before⟩ cs).settled = ⟨.between, after, ts.reverse ++ before⟩

/-- A text that is one piece has the tokens of the piece and no fault. -/
theorem lex_of_lexes {cs : List Char} {ts : List Token} (h : Lexes cs ts) :
    lex (String.ofList cs) = (ts, none) := by
  obtain ⟨after, h⟩ := h 0 []
  rw [lex, String.toList_ofList, ← finish_settled]
  show (feedAll ⟨.between, 0, []⟩ cs).settled.finish = _
  rw [h]
  simp [Scan.finish]

namespace Lexes

variable {cs ds : List Char} {ts us : List Token}

/-- Nothing makes no tokens. -/
theorem nil : Lexes [] [] := fun position _ => ⟨position, rfl⟩

/-- Two pieces, the second of which starts with a character that ends a
word. -/
theorem append {c : Char} (h : Lexes cs ts) (k : Lexes (c :: ds) us)
    (hword : isWordChar c = false) (hparen : c ≠ '(') : Lexes (cs ++ c :: ds) (ts ++ us) := by
  intro position before
  obtain ⟨middle, h⟩ := h position before
  obtain ⟨after, k⟩ := k middle (ts.reverse ++ before)
  refine ⟨after, ?_⟩
  -- The character at the cut settles the first piece, and then starts the second.
  rw [feedAll_append, feedAll_cons, ← feed_settled _ hword hparen, h, ← feedAll_cons, k]
  simp

/-- A character that is read between tokens and leaves the lexer there,
and then a piece. -/
theorem cons_of_start {c : Char} (done : List Token)
    (hstart : ∀ position before, Scan.start position before c = (.between, done ++ before))
    (h : Lexes cs ts) : Lexes (c :: cs) (done.reverse ++ ts) := by
  intro position before
  obtain ⟨after, h⟩ := h (position + 1) (done ++ before)
  refine ⟨after, ?_⟩
  have hfeed : Scan.feed ⟨.between, position, before⟩ c
      = ⟨.between, position + 1, done ++ before⟩ := by
    simp [Scan.feed, Scan.next, hstart]
  rw [feedAll_cons, hfeed, h]
  simp

/-- A blank and then a piece. -/
theorem blank {c : Char} (hc : Text.isBlank c = true) (h : Lexes cs ts) : Lexes (c :: cs) ts :=
  cons_of_start [] (fun _ _ => by simp [Scan.start, hc]) h

/-- Blanks and then a piece. -/
theorem blanks {gap : List Char} (hgap : ∀ c ∈ gap, Text.isBlank c = true) (h : Lexes cs ts) :
    Lexes (gap ++ cs) ts := by
  induction gap with
  | nil => exact h
  | cons c gap ih =>
      exact blank (hgap c List.mem_cons_self) (ih fun d hd => hgap d (List.mem_cons_of_mem c hd))

/-- An opening parenthesis and then a piece. -/
theorem lparen (h : Lexes cs ts) : Lexes ('(' :: cs) (⟨.lparen, "("⟩ :: ts) :=
  cons_of_start [⟨.lparen, "("⟩] (fun _ _ => rfl) h

/-- A closing parenthesis and then a piece. -/
theorem rparen (h : Lexes cs ts) : Lexes (')' :: cs) (⟨.rparen, ")"⟩ :: ts) :=
  cons_of_start [⟨.rparen, ")"⟩] (fun _ _ => rfl) h

/-- The opening of a vector and then a piece. -/
theorem vector (h : Lexes cs ts) : Lexes ('#' :: '(' :: cs) (⟨.vector, "#("⟩ :: ts) := by
  intro position before
  obtain ⟨after, h⟩ := h (position + 2) (⟨.vector, "#("⟩ :: before)
  refine ⟨after, ?_⟩
  show (feedAll ⟨.between, position + 2, ⟨.vector, "#("⟩ :: before⟩ cs).settled = _
  rw [h]
  simp

/-- A word. -/
theorem word {c : Char} (hword : ∀ d ∈ c :: cs, isWordChar d = true) :
    Lexes (c :: cs) [Token.ofWord (String.ofList (c :: cs))] := by
  intro position before
  refine ⟨position + 1 + cs.length, ?_⟩
  rw [feedAll_cons, Scan.feed_of_isWordChar (hword c List.mem_cons_self), feedAll_word cs fun d hd => hword d (List.mem_cons_of_mem c hd)]
  simp [Scan.settled, Scan.textOf]

end Lexes

end MiniScheme
