import MiniScheme.Proofs.Prefixes

/-!
# `MiniScheme.Proofs.LineEnds`: reading text in pieces of whole lines

Text that is cut behind a newline can be read in pieces. A newline ends
every word and comment, so behind it the lexer stands between two tokens or
inside a string. In the first case the text behind the cut is lexed as if
it stood by itself, only that its positions count from further back
(`Scan.feedAll_behind`). In the second case the string goes on, and the
tokens before it stay.

So the tokens of the first piece always start those of the whole
(`lex_append_starts`), and what they decide is known from
`MiniScheme.Proofs.Prefixes`. `read_append_lines` puts both together.
-/

set_option autoImplicit false

namespace MiniScheme

open Datum (IsFinal)

/-- The text is empty or ends in a newline. -/
def EndsLine (s : String) : Prop := ∀ c ∈ s.toList.getLast?, c = '\n'

instance (s : String) : Decidable (EndsLine s) :=
  decidable_of_iff (s.toList.getLast?.all (· == '\n') = true)
    (by simp [EndsLine, Option.all_eq_true])

/-! ### Positions that count from further back -/

/-- The fault of a text that stands behind `n` other characters. -/
def ReadError.shifted (n : Nat) : ReadError → ReadError
  | .openString position => .openString (position + n)
  | e => e

/-- The fault of a text that stands behind `n` other characters. -/
def Fault.shifted (n : Nat) : Fault → Fault
  | .reading e => .reading (e.shifted n)
  | f => f

theorem shifted_unfinished (n : Nat) (form : OpenForm) :
    form.unfinished.shifted n = form.unfinished := by
  cases form <;> rfl

theorem shifted_of_isFinal (n : Nat) {f : Fault} (h : Datum.IsFinal f) : f.shifted n = f := by
  cases h with
  | tooDeep => rfl
  | @reading e complete =>
      cases e with
      | openString => cases complete
      | _ => rfl

namespace Scan

/-- Where a string starts, if `n` other characters come first. -/
def Mode.shifted (n : Nat) : Mode → Mode
  | .string start read escaped => .string (start + n) read escaped
  | mode => mode

/-- The state, if `n` other characters come first and make the tokens
`before`. -/
def behind (n : Nat) (before : List Token) (s : Scan) : Scan :=
  ⟨s.mode.shifted n, s.position + n, s.tokens ++ before⟩

theorem start_behind (n position : Nat) (before tokens : List Token) (c : Char) :
    start (position + n) (tokens ++ before) c
      = ((start position tokens c).1.shifted n, (start position tokens c).2 ++ before) := by
  unfold start
  repeat' split
  all_goals rfl

theorem next_behind (n position : Nat) (before tokens : List Token) (mode : Mode) (c : Char) :
    next (mode.shifted n) (position + n) (tokens ++ before) c
      = ((next mode position tokens c).1.shifted n, (next mode position tokens c).2 ++ before) := by
  cases mode with
  | between => exact start_behind n position before tokens c
  | comment =>
      simp only [Mode.shifted, next]
      split <;> rfl
  | word read =>
      simp only [Mode.shifted, next]
      split
      · rfl
      · split
        · rfl
        · exact start_behind n position before (Token.ofWord (textOf read) :: tokens) c
  | string first read escaped =>
      simp only [Mode.shifted, next]
      split <;> rfl

theorem feed_behind (n : Nat) (before : List Token) (s : Scan) (c : Char) :
    (s.behind n before).feed c = (s.feed c).behind n before := by
  simp only [feed, behind, next_behind]
  congr 1
  omega

/-- What comes first only shifts positions and adds tokens. -/
theorem feedAll_behind (n : Nat) (before : List Token) (cs : List Char) :
    ∀ s : Scan, (s.behind n before).feedAll cs = (s.feedAll cs).behind n before := by
  induction cs with
  | nil => intro s; rfl
  | cons c cs ih =>
      intro s
      show ((s.behind n before).feed c).feedAll cs = ((s.feed c).feedAll cs).behind n before
      rw [feed_behind, ih]

theorem finish_behind (n : Nat) (before : List Token) (s : Scan) :
    (s.behind n before).finish
      = (before.reverse ++ s.finish.1, s.finish.2.map (ReadError.shifted n)) := by
  obtain ⟨mode, position, tokens⟩ := s
  cases mode <;> simp [behind, Mode.shifted, finish, ReadError.shifted]

theorem position_feedAll (cs : List Char) :
    ∀ s : Scan, (s.feedAll cs).position = s.position + cs.length := by
  induction cs with
  | nil => intro s; rfl
  | cons c cs ih =>
      intro s
      show ((s.feed c).feedAll cs).position = _
      rw [ih, List.length_cons]
      show s.position + 1 + cs.length = _
      omega

/-- The lexer stands between two tokens or inside a string. -/
def AtLineEnd (s : Scan) : Prop :=
  s.mode = .between ∨ ∃ start read escaped, s.mode = .string start read escaped

/-- A newline ends words and comments. -/
theorem atLineEnd_feed (s : Scan) : (s.feed '\n').AtLineEnd := by
  obtain ⟨mode, position, tokens⟩ := s
  cases mode with
  | between | comment => exact .inl rfl
  | word read =>
      left
      have hword : isWordChar '\n' = false := by decide
      simp [feed, next, hword, start, show Text.isBlank '\n' = true by decide]
  | string first read escaped => exact .inr ⟨first, '\n' :: read, _, by simp [feed, next]; rfl⟩

theorem atLineEnd_feedAll {s : String} (h : EndsLine s) :
    (feedAll {} s.toList).AtLineEnd := by
  rcases List.eq_nil_or_concat s.toList with hnil | ⟨front, c, hlast⟩
  · rw [hnil]
    exact .inl rfl
  · rw [List.concat_eq_append] at hlast
    obtain rfl : c = '\n' := h c (by simp [hlast])
    rw [hlast, feedAll_append]
    exact atLineEnd_feed _

/-- There all tokens are complete. -/
theorem AtLineEnd.finish_fst {s : Scan} (h : s.AtLineEnd) : s.finish.1 = s.tokens.reverse := by
  obtain ⟨mode, position, tokens⟩ := s
  rcases h with h | ⟨first, read, escaped, h⟩ <;> cases h <;> rfl

end Scan

/-! ### Lexing in pieces -/

/-- The only fault of a lexer is one that more text can mend. -/
theorem isIncomplete_of_lex {s : String} {e : ReadError} (h : (lex s).2 = some e) :
    e.isIncomplete = true := by
  rw [lex, Scan.finish] at h
  split at h
  · cases h
  · cases h
  · cases h
  · cases h
    rfl

/-- Behind whole lines without a fault the lexer starts anew. -/
theorem lex_append_of_none {s : String} (hs : EndsLine s) (hnone : (lex s).2 = none)
    (t : String) :
    lex (s ++ t) = ((lex s).1 ++ (lex t).1, (lex t).2.map (ReadError.shifted s.length)) := by
  have hend := Scan.atLineEnd_feedAll hs
  have hposition := Scan.position_feedAll s.toList {}
  rw [lex] at hnone
  rw [lex, lex, String.toList_append, Scan.feedAll_append, hend.finish_fst]
  generalize Scan.feedAll {} s.toList = state at hend hposition hnone
  have hstate : state = ({} : Scan).behind s.length state.tokens := by
    obtain ⟨mode, position, tokens⟩ := state
    rcases hend with hmode | ⟨start, read, escaped, hmode⟩
    · cases hmode
      cases hposition
      simp [Scan.behind, Scan.Mode.shifted, String.length_toList]
    · cases hmode
      cases hnone
  rw [hstate, Scan.feedAll_behind, Scan.finish_behind]
  simp only [Scan.behind, List.nil_append]
  rfl

/-- The tokens of whole lines stand first, whatever follows. -/
theorem lex_append_starts {s : String} (hs : EndsLine s) (t : String) :
    ∃ us fault, lex (s ++ t) = ((lex s).1 ++ us, fault) := by
  have hend := Scan.atLineEnd_feedAll hs
  rw [lex, lex, String.toList_append, Scan.feedAll_append, hend.finish_fst]
  generalize Scan.feedAll {} s.toList = state
  obtain ⟨mode, position, tokens⟩ := state
  have hstate : (⟨mode, position, tokens⟩ : Scan) = Scan.behind 0 tokens ⟨mode, position, []⟩ := by
    cases mode <;> rfl
  rw [hstate, Scan.feedAll_behind, Scan.finish_behind]
  exact ⟨_, _, rfl⟩

/-! ### Reading in pieces -/

/-- Where the fault of a text shifts, only the fault of reading it shifts. -/
theorem readTokens_shifted (depth n : Nat) (ts : List Token) (fault : Option ReadError) :
    readTokens depth ts (fault.map (ReadError.shifted n))
      = ((readTokens depth ts fault).1, (readTokens depth ts fault).2.map (Fault.shifted n)) := by
  obtain ⟨data, hwhole | ⟨form, hunfinished⟩ | ⟨f, hrefused⟩⟩ := Row.cases depth ts
  · rw [hwhole.read, hwhole.read]
    cases fault <;> rfl
  · rw [hunfinished.read, hunfinished.read]
    cases fault with
    | none => simp [Fault.shifted, shifted_unfinished]
    | some e => rfl
  · rw [hrefused.read_self, hrefused.read_self]
    simp [shifted_of_isFinal n hrefused.final]

/-- Whole lines are read without a fault, and then what follows is read as
if it stood by itself; or they could go on, and then what was read of them
stays; or they are refused, whatever follows. -/
theorem read_append_cases (depth : Nat) {s : String} (hs : EndsLine s) :
    ∃ data,
      (read depth s = (data, none) ∧ ∀ t, read depth (s ++ t)
        = (data ++ (read depth t).1, (read depth t).2.map (Fault.shifted s.length))) ∨
      (∃ e, e.isIncomplete = true ∧ read depth s = (data, some (.reading e)) ∧
        ∀ t, data <+: (read depth (s ++ t)).1) ∨
      (∃ f, IsFinal f ∧ read depth s = (data, some f) ∧
        ∀ t, read depth (s ++ t) = (data, some f)) := by
  obtain ⟨data, hkind⟩ := Row.cases depth (lex s).1
  refine ⟨data, ?_⟩
  rcases hkind with hwhole | ⟨form, hunfinished⟩ | ⟨f, hrefused⟩
  · cases hfault : (lex s).2 with
    | none =>
        refine .inl ⟨by rw [read_eq_readTokens, hfault, hwhole.read]; rfl, fun t => ?_⟩
        rw [read_eq_readTokens, lex_append_of_none hs hfault, hwhole, readTokens_shifted,
          read_eq_readTokens]
    | some e =>
        -- The tokens are whole, but behind them a string is open.
        refine .inr (.inl ⟨e, isIncomplete_of_lex hfault, ?_, fun t => ?_⟩)
        · rw [read_eq_readTokens, hfault, hwhole.read]
          rfl
        · obtain ⟨us, fault, hlex⟩ := lex_append_starts hs t
          rw [read_eq_readTokens, hlex, hwhole]
          exact ⟨_, rfl⟩
  · refine .inr (.inl ⟨(lex s).2.getD form.unfinished, ?_, ?_, fun t => ?_⟩)
    · cases hfault : (lex s).2 with
      | none => exact Row.isIncomplete_unfinished form
      | some e => exact isIncomplete_of_lex hfault
    · rw [read_eq_readTokens, hunfinished.read]
    · obtain ⟨us, fault, hlex⟩ := lex_append_starts hs t
      rw [read_eq_readTokens, hlex]
      exact hunfinished.starts fault us
  · refine .inr (.inr ⟨f, hrefused.final, ?_, fun t => ?_⟩)
    · rw [read_eq_readTokens, hrefused.read_self]
    · obtain ⟨us, fault, hlex⟩ := lex_append_starts hs t
      rw [read_eq_readTokens, hlex, hrefused.read]

/-- **Reading text is compositional at the ends of lines.** Let `s` be whole
lines and `t` any text. If `s` is read without a fault, then `s ++ t` is read
as the data of `s` and those of `t`, and has the fault of `t`, its position
counted from the start of `s`. A fault of `s` that is not an incomplete one
stays, and so do the data before it. If `s` is incomplete, at least its data
stay. -/
theorem read_append_lines (depth : Nat) (s t : String) (hs : EndsLine s) :
    (∀ vs, read depth s = (vs, none) →
      read depth (s ++ t)
        = (vs ++ (read depth t).1, (read depth t).2.map (Fault.shifted s.length))) ∧
    (∀ vs e, read depth s = (vs, some (.reading e)) → e.isIncomplete = false →
      read depth (s ++ t) = (vs, some (.reading e))) ∧
    (∀ vs e, read depth s = (vs, some (.reading e)) → e.isIncomplete = true →
      vs <+: (read depth (s ++ t)).1) := by
  obtain ⟨data, ⟨hread, happend⟩ | ⟨e, hincomplete, hread, hstarts⟩ | ⟨f, hfinal, hread, hstays⟩⟩ :=
    read_append_cases depth hs
  · refine ⟨fun vs h => ?_, fun vs e h _ => ?_, fun vs e h _ => ?_⟩
    · cases hread.symm.trans h
      exact happend t
    · cases hread.symm.trans h
    · cases hread.symm.trans h
  · refine ⟨fun vs h => ?_, fun vs e' h hcomplete => ?_, fun vs e' h _ => ?_⟩
    · cases hread.symm.trans h
    · cases hread.symm.trans h
      exact absurd (hincomplete.symm.trans hcomplete) (by decide)
    · cases hread.symm.trans h
      exact hstarts t
  · refine ⟨fun vs h => ?_, fun vs e h _ => ?_, fun vs e h hincomplete => ?_⟩
    · cases hread.symm.trans h
    · cases hread.symm.trans h
      exact hstays t
    · cases hread.symm.trans h
      cases hfinal with
      | reading hcomplete => exact absurd (hincomplete.symm.trans hcomplete) (by decide)

/-- The theorem at lines before an open string, at refused lines, and at
lines that end inside a string inside a list. -/
theorem read_append_lines_examples :
    read 4 ("a ; (\n" ++ "b \"c") = ([.symbol "a", .symbol "b"], some (.reading (.openString 8))) ∧
    read 4 ("a (b . c d\n" ++ ")") = ([.symbol "a"], some (.reading .longTail)) ∧
    [.symbol "a"] <+: (read 4 ("a (b \"c\n" ++ "d\") e")).1 := by
  refine ⟨?_, ?_, ?_⟩
  · exact (read_append_lines 4 "a ; (\n" "b \"c" (by decide)).1 _ rfl
  · exact (read_append_lines 4 "a (b . c d\n" ")" (by decide)).2.1 _ .longTail rfl rfl
  · exact (read_append_lines 4 "a (b \"c\n" "d\") e" (by decide)).2.2 _ (.openString 5) rfl rfl

end MiniScheme
