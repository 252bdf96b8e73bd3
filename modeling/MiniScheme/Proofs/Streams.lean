import MiniScheme.Proofs.CursorCalls
import MiniScheme.Proofs.Descent

/-!
# `MiniScheme.Proofs.Streams`: a token stream behaves as a cursor

A stream has a buffer, and reads data by recursive descent. A plain cursor has
neither: what a call does to it depends on the tokens that were not taken yet
and on the fault behind them (`Cursor.call`). One call of a stream does the same
(`TokenStream.Step`), and so does a row of calls, as long as no text overflows
(`calls_eq`). So all that is known of cursors is known of streams
(`stream_behaves_as_cursor`).

When a text overflows, the stream is left at its end, and the tokens that were
not taken are lost (`nested_text_loses_tokens`). The call that overflows still
gives the reply that the cursor gives. Tokens that do not come from a text stay.
-/

set_option autoImplicit false

namespace MiniScheme

namespace TokenStream

/-- The replies to calls one after the other. -/
def calls (depth : Nat) : TokenStream → List Call → List Reply × TokenStream
  | s, [] => ([], s)
  | s, call :: rest =>
    let (reply, s) := s.call depth call
    let (replies, s) := s.calls depth rest
    (reply :: replies, s)

theorem calls_cons (depth : Nat) (s : TokenStream) (first : Call) (rest : List Call) :
    s.calls depth (first :: rest) = ((s.call depth first).1 :: ((s.call depth first).2.calls depth rest).1,
      ((s.call depth first).2.calls depth rest).2) := rfl

/-! ### One call -/

variable {s s' : TokenStream} {depth : Nat}

/-- A call of a stream, compared with a call of the plain cursor: the reply is
the same, and what is left of the tokens, unless a text overflows. -/
structure Step (s : TokenStream) (plain : Reply × Cursor) (out : Reply × TokenStream) : Prop where
  leaves : s.Leaves out.2
  reply : out.1 = plain.1
  cursor : out.2.cursor = plain.2 ∨
    out.1.overflows = true ∧ s.source.scanned = true ∧ out.2.cursor = ⟨[], none⟩

theorem step_peek (hs : s.Sound) : Step s (s.cursor.call depth .peek) (s.call depth .peek) := by
  by_cases hleft : s.left = []
  · have hpeek := peek_of_left_eq_nil hleft
    simp only [call, outcome, hpeek, Cursor.call, cursor, hleft, Cursor.peek]
    cases s.source.fault with
    | none => exact ⟨s.leaves_ended, rfl, .inl rfl⟩
    | some e => exact ⟨s.leaves_ended, rfl, .inl rfl⟩
  · obtain ⟨t, src, hpeek, hcons, hfault, hpeeked⟩ := exists_peek hs hleft
    simp only [call, outcome, hpeek, Cursor.call, cursor, hcons, ← hfault, Cursor.peek]
    exact ⟨hpeeked, rfl, .inl rfl⟩

theorem step_advance (hs : s.Sound) :
    Step s (s.cursor.call depth .advance) (s.call depth .advance) := by
  rcases hs.cases with ⟨⟨tokens, fault, scanned⟩, rfl⟩ | ⟨t, src, rfl⟩
  · cases tokens with
    | cons t ts => exact ⟨⟨Nat.zero_le 1, List.suffix_cons _ _, rfl⟩, rfl, .inl rfl⟩
    | nil => cases fault <;> exact ⟨leaves_ended _, rfl, .inl rfl⟩
  · exact ⟨leaves_taken t src, rfl, .inl rfl⟩

theorem step_parse (hs : s.Sound) : Step s (s.cursor.call depth .parse) (s.call depth .parse) := by
  have hparsed : Parsed s depth (expression (s.left.length + 1) depth s) :=
    parsed_expression hs (Nat.le_succ _)
  simp only [call, outcome, Cursor.call]
  generalize expression (s.left.length + 1) depth s = r at hparsed
  cases hparsed with
  | done leaves _ _ same => exact ⟨leaves, by rw [same]; rfl, .inl (by rw [same]; rfl)⟩
  | atEnd leaves same => exact ⟨leaves, by rw [same]; rfl, .inl (by rw [same]; rfl)⟩
  | failed leaves same => exact ⟨leaves, by rw [same]; rfl, .inl (by rw [same]; rfl)⟩
  | overflow leaves scanned ended same =>
      exact ⟨leaves, congrArg Reply.datum same.symm, .inr ⟨rfl, scanned, ended⟩⟩

/-- Data are read one after the other, and each one takes a token. -/
theorem step_expressionsFrom {fuel : Nat} (rounds : Nat) :
    ∀ {read : List Datum} {s : TokenStream}, s.Sound → s.left.length ≤ fuel →
      s.left.length < rounds →
      Step s
        (.data (Cursor.restFrom depth s.source.fault read depth [] s.left).1
          (Cursor.restFrom depth s.source.fault read depth [] s.left).2.1,
          (Cursor.restFrom depth s.source.fault read depth [] s.left).2.2)
        (.data (expressionsFrom fuel depth rounds read s).1.1
          (expressionsFrom fuel depth rounds read s).1.2,
          (expressionsFrom fuel depth rounds read s).2) := by
  -- On the rounds. A datum leaves fewer tokens, so the rounds do not run out.
  induction rounds with
  | zero => exact fun _ _ hrounds => absurd hrounds (Nat.not_lt_zero _)
  | succ rounds ih =>
      intro read s hs hfuel hrounds
      rw [expressionsFrom]
      by_cases hleft : s.left = []
      · rw [peek_of_left_eq_nil hleft, hleft, Cursor.restFrom]
        cases s.source.fault with
        | none => exact ⟨s.leaves_ended, rfl, .inl rfl⟩
        | some e => exact ⟨s.leaves_ended, rfl, .inl rfl⟩
      · obtain ⟨t, src, hpeek, -⟩ := exists_peek hs hleft
        have hparsed : Parsed s depth (expression fuel depth s) := parsed_expression hs hfuel
        have hnext : Cursor.nextFrom s.source.fault depth [] s.left = s.cursor.next depth := rfl
        rw [hpeek, Cursor.restFrom_eq, hnext]
        dsimp only
        rw [← expression_of_peek hpeek]
        generalize expression fuel depth s = r at hparsed
        cases hparsed with
        | done leaves shorter fault same =>
            rename_i d s'
            have hrest := @ih (d :: read) s' leaves.sound (by omega) (by omega)
            rw [fault] at hrest
            rw [same]
            refine ⟨leaves.trans hrest.leaves, hrest.reply, ?_⟩
            rw [← leaves.scanned]
            exact hrest.cursor
        | atEnd leaves same => exact ⟨leaves, by rw [same], .inl (by rw [same])⟩
        | failed leaves same => exact ⟨leaves, by rw [same], .inl (by rw [same])⟩
        | overflow leaves scanned ended same =>
            generalize s.cursor.next depth = plain at same
            obtain ⟨outcome, c⟩ := plain
            obtain rfl : outcome = .error .tooDeep := same
            exact ⟨leaves, rfl, .inr ⟨rfl, scanned, ended⟩⟩

/-- **One call of a stream is one call of the plain cursor.** -/
theorem step_call (hs : s.Sound) (c : Call) : Step s (s.cursor.call depth c) (s.call depth c) := by
  cases c with
  | peek => exact step_peek hs
  | advance => exact step_advance hs
  | parse => exact step_parse hs
  | parseAll =>
      exact step_expressionsFrom (s.left.length + 1) hs (Nat.le_succ _) (Nat.lt_succ_self _)

/-! ### Rows of calls -/

theorem leaves_calls (cs : List Call) :
    ∀ {s : TokenStream}, s.Sound → s.Leaves (s.calls depth cs).2 := by
  induction cs with
  | nil => exact fun hs => .refl hs
  | cons c cs ih =>
      intro s hs
      have hstep : Step s (s.cursor.call depth c) (s.call depth c) := step_call hs c
      exact hstep.leaves.trans (ih hstep.leaves.sound)

/-- A row of calls is a row of calls of the plain cursor, as long as no text
overflows. -/
theorem calls_eq (cs : List Call) :
    ∀ {s : TokenStream}, s.Sound →
      (s.source.scanned = true → ∀ r ∈ (s.calls depth cs).1, r.overflows = false) →
      (s.calls depth cs).1 = (s.cursor.calls depth cs).1 ∧
        (s.calls depth cs).2.cursor = (s.cursor.calls depth cs).2 := by
  induction cs with
  | nil => exact fun _ _ => ⟨rfl, rfl⟩
  | cons c cs ih =>
      intro s hs hquiet
      rw [calls_cons] at hquiet
      have hstep : Step s (s.cursor.call depth c) (s.call depth c) := step_call hs c
      have hcursor : (s.call depth c).2.cursor = (s.cursor.call depth c).2 := by
        refine hstep.cursor.resolve_right fun ⟨hoverflows, hscanned, _⟩ => ?_
        have hno := hquiet hscanned _ List.mem_cons_self
        rw [hoverflows] at hno
        cases hno
      obtain ⟨hreplies, hleft⟩ := ih hstep.leaves.sound fun hscanned r hr =>
        hquiet (hstep.leaves.scanned.symm.trans hscanned) r (List.mem_cons_of_mem _ hr)
      rw [hcursor] at hreplies hleft
      rw [calls_cons, Cursor.calls_cons, hstep.reply, hreplies]
      exact ⟨rfl, hleft⟩

/-! ### Looking changes nothing -/

/-- If there is a token, a call does the same after one has looked at it. -/
theorem call_of_peek (hs : s.Sound) {t : Token} {src : TokenSource}
    (hpeek : peek s = .ok (some t) ⟨[t], src⟩) (hleft : s.left = t :: src.tokens) (c : Call) :
    call depth ⟨[t], src⟩ c = s.call depth c := by
  have hfuel : left ⟨[t], src⟩ = s.left := hleft.symm
  cases c with
  | peek =>
      simp only [call, outcome, hpeek]
      rfl
  | advance =>
      rcases hs.cases with ⟨⟨tokens, fault, scanned⟩, rfl⟩ | ⟨u, src', rfl⟩
      · cases tokens with
        | nil => cases fault <;> cases hpeek
        | cons u us =>
            cases hpeek
            rfl
      · cases hpeek
        rfl
  | parse => simp only [call, outcome, hfuel, expression_of_peek hpeek]
  | parseAll =>
      simp only [call, hfuel, expressionsFrom, hpeek]
      rfl

/-- Looking at the next token changes no reply, unless the fault of the source
arises. -/
theorem calls_of_peek (hs : s.Sound) (hs' : s.left ≠ [] ∨ s.source.fault = none) (cs : List Call) :
    ((s.call depth .peek).2.calls depth cs).1 = (s.calls depth cs).1 := by
  by_cases hleft : s.left = []
  · have hfault := hs'.resolve_left (not_not_intro hleft)
    obtain ⟨buffer, tokens, fault, scanned⟩ := s
    obtain ⟨rfl, rfl⟩ : buffer = [] ∧ tokens = [] := List.append_eq_nil_iff.mp hleft
    obtain rfl : fault = none := hfault
    rfl
  · obtain ⟨t, src, hpeek, hcons, -⟩ := exists_peek hs hleft
    have hpeeked : (s.call depth .peek).2 = ⟨[t], src⟩ := by
      simp only [call, outcome, hpeek]
      rfl
    rw [hpeeked]
    cases cs with
    | nil => rfl
    | cons c cs => rw [calls_cons, calls_cons, call_of_peek hs hpeek hcons]

/-! ### Streams as cursors -/

/-- After any calls of a stream, at most one token waits in the buffer, and
looking at the next token changes no later reply unless the fault of the source
arises. If no text has overflowed, the replies are those of a plain cursor and
the reply to the next call will be, the tokens that the calls took are a front of
the source, followed by those that are left, and the fault of the source arises
once, in the first call that comes to the end: the other replies are those that
there would be without it. -/
theorem stream_behaves_as_cursor {depth : Nat} {source : TokenSource} {cs : List Call}
    {replies : List Reply} {s : TokenStream}
    (hrun : TokenStream.calls depth ⟨[], source⟩ cs = (replies, s)) :
    s.buffer.length ≤ 1 ∧
    (s.left ≠ [] ∨ s.source.fault = none → ∀ later,
      ((s.call depth .peek).2.calls depth later).1 = (s.calls depth later).1) ∧
    ((source.scanned = true → ∀ r ∈ replies, r.overflows = false) →
      (Cursor.mk source.tokens source.fault).calls depth cs = (replies, s.cursor) ∧
      (∀ c, (s.call depth c).1 = (s.cursor.call depth c).1) ∧
      (∃ taken, Cursor.TakesAll depth cs replies taken ∧ taken ++ s.left = source.tokens) ∧
      ∀ e, source.fault = some e →
        replies = Reply.raiseOnce e ((Cursor.mk source.tokens none).calls depth cs).1 ∧
        s.left = ((Cursor.mk source.tokens none).calls depth cs).2.tokens ∧
        s.source.fault = if ((Cursor.mk source.tokens none).calls depth cs).1.any Reply.meetsEnd
          then none else some e) := by
  have hstart : Sound ⟨[], source⟩ := Nat.zero_le 1
  have hsound : s.Sound := by
    have hleaves : Leaves ⟨[], source⟩ (TokenStream.calls depth ⟨[], source⟩ cs).2 :=
      leaves_calls cs hstart
    rw [hrun] at hleaves
    exact hleaves.sound
  refine ⟨hsound, calls_of_peek hsound, fun hquiet => ?_⟩
  have hcalls := calls_eq cs hstart (by rw [hrun]; exact hquiet)
  rw [hrun] at hcalls
  obtain ⟨hreplies, hcursor⟩ := hcalls
  have hplain : (Cursor.mk source.tokens source.fault).calls depth cs = (replies, s.cursor) :=
    (Prod.ext hreplies hcursor).symm
  refine ⟨hplain, fun c => (step_call hsound c).reply, ?_, fun e he => ?_⟩
  · obtain ⟨taken, htaken, hparts⟩ :=
      Cursor.exists_takesAll depth cs ⟨source.tokens, source.fault⟩
    rw [hplain] at htaken hparts
    exact ⟨taken, htaken, hparts⟩
  · rw [he] at hplain
    have hfault := Cursor.calls_of_fault depth e cs source.tokens
    rw [hplain] at hfault
    exact ⟨hfault.1, congrArg Cursor.tokens hfault.2, congrArg Cursor.fault hfault.2⟩

/-- Calls to read a text that breaks off in a string, after a quotation and
inside a list. -/
def openStringCalls : List Call := [.peek, .parse, .advance, .parse, .parse, .peek]

/-- What the calls give: the list is begun with one token taken by itself, so the
datum behind it is read alone, and then the fault arises. -/
def openStringReplies : List Reply :=
  [.token (.ok (some ⟨.quote, "'"⟩)), .datum (.ok (some (.quotation (.symbol "a")))),
    .token (.ok (some ⟨.lparen, "("⟩)), .datum (.ok (some (.symbol "b"))),
    .datum (.error (.reading (.openString 6))), .token (.ok none)]

theorem stream_behaves_as_cursor_openString :
    TokenStream.calls 2 ⟨[], .ofText "'a (b \"c"⟩ openStringCalls
      = (openStringReplies, ⟨[], [], none, true⟩) ∧
    (Cursor.ofSource "'a (b \"c").calls 2 openStringCalls = (openStringReplies, ⟨[], none⟩) := by
  have hrun : TokenStream.calls 2 ⟨[], .ofText "'a (b \"c"⟩ openStringCalls
      = (openStringReplies, ⟨[], [], none, true⟩) := rfl
  obtain ⟨-, -, hplain⟩ := stream_behaves_as_cursor hrun
  exact ⟨hrun, (hplain fun _ => by simp [openStringReplies, Reply.overflows]).1⟩

/-- A text that overflows is left at its end, whatever tokens were not taken. -/
theorem nested_text_loses_tokens :
    TokenStream.calls 2 ⟨[], .ofText "(((("⟩ [.parse, .peek]
      = ([.datum (.error .tooDeep), .token (.ok none)], ⟨[], [], none, true⟩) ∧
    (Cursor.ofSource "((((").calls 2 [.parse, .peek]
      = ([.datum (.error .tooDeep), .token (.ok (some ⟨.lparen, "("⟩))],
        ⟨[⟨.lparen, "("⟩], none⟩) :=
  ⟨rfl, rfl⟩

end TokenStream

end MiniScheme
