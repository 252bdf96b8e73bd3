import MiniScheme.Proofs.Parsing

/-!
# `MiniScheme.Proofs.Prefixes`: what the start of a row of tokens decides

A row of tokens is whole, unfinished or refused, and which of the three it
is says what can become of it when more tokens follow.

* A whole row (`Row.Whole`) is read without a fault, and what follows it is
  read as if it stood by itself.
* An unfinished row (`Row.Unfinished`) ends inside a form. What was read before
  that form stays, and some row of tokens behind it makes it whole.
* A refused row (`Row.Refused`) holds a fault, and nothing that follows changes
  what it is read as.

`Row.cases` says that every row is one of these. It goes back to
`restFrom_append_cases`: reading the tokens either leads to a place from
where all that follows is read, or fails whatever follows. Every stack of
open forms can be closed (`exists_closing`).

`row_trichotomy` states the three cases in terms of the fault of the
row alone. The console relies on them to decide whether to go on reading.
-/

set_option autoImplicit false

namespace MiniScheme

open Datum (IsFinal)

namespace Cursor

/-- Tokens with any forms open: either they lead to a place from where all
that follows is read, or they fail, whatever follows. Open forms and room
make up the limit in both places. -/
theorem restFrom_append_cases {depth : Nat} (ts : List Token) :
    ∀ (read : List Datum) (room : Nat) (stack : List OpenForm), room + stack.length = depth →
      (∃ data room' stack', room' + stack'.length = depth ∧ ∀ fault us,
        restFrom depth fault read room stack (ts ++ us)
          = restFrom depth fault (data ++ read) room' stack' us) ∨
      ∃ data f rest, IsFinal f ∧ ∀ fault us,
        restFrom depth fault read room stack (ts ++ us)
          = ((data ++ read).reverse, some f, ⟨rest ++ us, fault⟩) := by
  induction ts with
  | nil =>
      intro read room stack hlimit
      exact .inl ⟨[], room, stack, hlimit, fun _ _ => rfl⟩
  | cons t ts ih =>
      intro read room stack hlimit
      have hregular := Datum.feed_regular room stack t
      -- The first token decides where the others are read from.
      cases hfeed : Datum.feed room stack t with
      | done d =>
          have hstep : ∀ fault us, restFrom depth fault read room stack (t :: ts ++ us)
              = restFrom depth fault (d :: read) depth [] (ts ++ us) := by
            intro fault us
            rw [List.cons_append, restFrom, hfeed]
          rcases ih (d :: read) depth [] rfl with ⟨data, room', stack', hlimit', hread⟩ |
            ⟨data, f, rest, hf, hread⟩
          · refine .inl ⟨data ++ [d], room', stack', hlimit', fun fault us => ?_⟩
            rw [hstep, hread, List.append_assoc, List.singleton_append]
          · refine .inr ⟨data ++ [d], f, rest, hf, fun fault us => ?_⟩
            rw [hstep, hread, List.append_assoc, List.singleton_append]
      | more room' stack' =>
          rw [hfeed] at hregular
          have hstep : ∀ fault us, restFrom depth fault read room stack (t :: ts ++ us)
              = restFrom depth fault read room' stack' (ts ++ us) := by
            intro fault us
            rw [List.cons_append, restFrom, hfeed]
          simp only [hstep]
          exact ih read room' stack' (hregular.2.trans hlimit)
      | reject f =>
          rw [hfeed] at hregular
          refine .inr ⟨[], f, ts, hregular, fun fault us => ?_⟩
          rw [List.cons_append, restFrom, hfeed]
          rfl
      | decline f =>
          rw [hfeed] at hregular
          refine .inr ⟨[], f, t :: ts, hregular, fun fault us => ?_⟩
          rw [List.cons_append, restFrom, hfeed]
          rfl

/-! ### Closing what is open -/

/-- Some row of tokens closes the forms. -/
def Closable (depth : Nat) (stack : List OpenForm) : Prop :=
  ∀ (read : List Datum) (room : Nat), ∃ us, (∀ t ∈ us, t.kind ∈ Token.Kind.known) ∧
    (restFrom depth none read room stack us).2.1 = none

/-- A token that delivers a datum to the forms around makes the innermost
form closable, if the others are. -/
theorem closable_of_feed {depth : Nat} {form : OpenForm} {outer : List OpenForm} {t : Token}
    {d : Datum} (houter : ∀ stack : List OpenForm, stack.length ≤ outer.length →
      Closable depth stack) (hknown : t.kind ∈ Token.Kind.known)
    (hfeed : ∀ room, Datum.feed room (form :: outer) t = Datum.deliver d (room + 1) outer) :
    Closable depth (form :: outer) := by
  intro read room
  rcases Datum.deliver_cases d (room + 1) outer with ⟨e, hdone⟩ |
    ⟨room', stack', hmore, -, hle, -⟩
  · refine ⟨[t], by simpa using hknown, ?_⟩
    rw [restFrom, hfeed, hdone]
    rfl
  · obtain ⟨us, hus, hrest⟩ := houter stack' hle read room'
    refine ⟨t :: us, by simpa using ⟨hknown, hus⟩, ?_⟩
    rw [restFrom, hfeed, hmore]
    exact hrest

/-- Every stack of open forms can be closed, with the room that is left. -/
theorem exists_closing (depth : Nat) (stack : List OpenForm) : Closable depth stack := by
  -- On the number of open forms: a quotation that is completed completes the
  -- quotations around it, so closing one form may close several.
  induction hn : stack.length using Nat.strongRecOn generalizing stack with
  | ind n ih =>
      cases stack with
      | nil => exact fun read room => ⟨[], by simp, rfl⟩
      | cons form outer =>
          have houter : ∀ stack : List OpenForm, stack.length ≤ outer.length →
              Closable depth stack := by
            intro stack hle
            exact ih stack.length (by rw [← hn, List.length_cons]; omega) stack rfl
          cases form with
          | quotation =>
              have hfeed : ∀ room, Datum.feed room (.quotation :: outer) ⟨.boolean, "#t"⟩
                  = Datum.deliver (.quotation (.boolean true)) (room + 1) outer := fun room => rfl
              exact closable_of_feed houter (by decide) hfeed
          | list items =>
              have hfeed : ∀ room, Datum.feed room (.list items :: outer) ⟨.rparen, ")"⟩
                  = Datum.deliver (.chain items .nil) (room + 1) outer := fun room => rfl
              exact closable_of_feed houter (by decide) hfeed
          | ending items tail =>
              have hfeed : ∀ room, Datum.feed room (.ending items tail :: outer) ⟨.rparen, ")"⟩
                  = Datum.deliver (.chain items tail) (room + 1) outer := fun room => rfl
              exact closable_of_feed houter (by decide) hfeed
          | vector items =>
              have hfeed : ∀ room, Datum.feed room (.vector items :: outer) ⟨.rparen, ")"⟩
                  = Datum.deliver (.vector items.reverse) (room + 1) outer := fun room => rfl
              exact closable_of_feed houter (by decide) hfeed
          | tail items =>
              -- A tail takes one token more than the list that then waits for its end.
              have hfeed : ∀ room, Datum.feed room (.ending items (.boolean true) :: outer)
                  ⟨.rparen, ")"⟩ = Datum.deliver (.chain items (.boolean true)) (room + 1) outer :=
                fun room => rfl
              intro read room
              obtain ⟨us, hus, hrest⟩ := closable_of_feed houter (by decide) hfeed read room
              exact ⟨⟨.boolean, "#t"⟩ :: us, by simpa using ⟨by decide, hus⟩, hrest⟩

end Cursor

namespace Row

/-! ### Rows -/

/-- The row is read as these data, and what follows it is read as if it
stood by itself. -/
def Whole (depth : Nat) (ts : List Token) (data : List Datum) : Prop :=
  ∀ fault us, readTokens depth (ts ++ us) fault
    = (data ++ (readTokens depth us fault).1, (readTokens depth us fault).2)

/-- The row is read as these data, and then ends inside this form, which is
its fault unless the text has one of its own. -/
structure Unfinished (depth : Nat) (ts : List Token) (data : List Datum) (form : OpenForm) :
    Prop where
  read : ∀ fault, readTokens depth ts fault = (data, some (.reading (fault.getD form.unfinished)))
  starts : ∀ fault us, data <+: (readTokens depth (ts ++ us) fault).1
  completed : ∃ us, (∀ t ∈ us, t.kind ∈ Token.Kind.known) ∧
    (readTokens depth (ts ++ us) none).2 = none

/-- The row is read as these data up to a fault, whatever follows. -/
structure Refused (depth : Nat) (ts : List Token) (data : List Datum) (f : Fault) : Prop where
  final : IsFinal f
  read : ∀ fault us, readTokens depth (ts ++ us) fault = (data, some f)

theorem Whole.read {depth : Nat} {ts : List Token} {data : List Datum} (h : Whole depth ts data)
    (fault : Option ReadError) :
    readTokens depth ts fault = (data, fault.map Fault.reading) := by
  have hread := h fault []
  rw [List.append_nil] at hread
  rw [hread]
  cases fault <;> simp [readTokens_eq_restFrom, Cursor.restFrom, Cursor.atEnd]

theorem Refused.read_self {depth : Nat} {ts : List Token} {data : List Datum} {f : Fault}
    (h : Refused depth ts data f) (fault : Option ReadError) :
    readTokens depth ts fault = (data, some f) := by
  have hread := h.read fault []
  rwa [List.append_nil] at hread

theorem isIncomplete_unfinished (form : OpenForm) : form.unfinished.isIncomplete = true := by
  cases form <;> rfl

/-- Every row of tokens is whole, unfinished or refused. -/
theorem cases (depth : Nat) (ts : List Token) :
    ∃ data, Whole depth ts data ∨ (∃ form, Unfinished depth ts data form) ∨
      ∃ f, Refused depth ts data f := by
  have hstart : depth + ([] : List OpenForm).length = depth := rfl
  rcases Cursor.restFrom_append_cases ts [] depth [] hstart with
    ⟨data, room, stack, hlimit, hread⟩ | ⟨data, f, rest, hf, hread⟩
  · refine ⟨data.reverse, ?_⟩
    simp only [List.append_nil] at hread
    -- What follows is read from the place that the row leads to.
    have hrow : ∀ fault us, readTokens depth (ts ++ us) fault
        = (data.reverse ++ (Cursor.restFrom depth fault [] room stack us).1,
            (Cursor.restFrom depth fault [] room stack us).2.1) := by
      intro fault us
      rw [readTokens_eq_restFrom, hread, Cursor.restFrom_read]
    cases stack with
    | nil =>
        obtain rfl : room = depth := hlimit
        exact .inl hrow
    | cons form outer =>
        refine .inr (.inl ⟨form, fun fault => ?_, fun fault us => ?_, ?_⟩)
        · have hself := hrow fault []
          rw [List.append_nil] at hself
          rw [hself]
          cases fault <;> simp [Cursor.restFrom, Cursor.atEnd]
        · rw [hrow]
          exact List.prefix_append _ _
        · obtain ⟨us, hknown, hus⟩ := Cursor.exists_closing depth (form :: outer) [] room
          exact ⟨us, hknown, by rw [hrow, hus]⟩
  · refine ⟨data.reverse, .inr (.inr ⟨f, hf, fun fault us => ?_⟩)⟩
    rw [readTokens_eq_restFrom, hread, List.append_nil]

/-! ### Three kinds of rows -/

/-- The row has no fault, and any tokens behind it are read as if they
stood by themselves, data and fault. -/
def ReadsThrough (depth : Nat) (ts : List Token) : Prop :=
  (readTokens depth ts none).2 = none ∧ ∀ us, readTokens depth (ts ++ us) none
    = ((readTokens depth ts none).1 ++ (readTokens depth us none).1,
        (readTokens depth us none).2)

/-- The fault of the row is an incomplete one, and some tokens behind it
are read with it without a fault. -/
def CanBeCompleted (depth : Nat) (ts : List Token) : Prop :=
  (∃ e, (readTokens depth ts none).2 = some (.reading e) ∧ e.isIncomplete = true) ∧
    ∃ us, (∀ t ∈ us, t.kind ∈ Token.Kind.known) ∧ (readTokens depth (ts ++ us) none).2 = none

/-- The fault of the row is not an incomplete one, and with any tokens
behind it the row is read as the same data and the same fault. -/
def StaysRefused (depth : Nat) (ts : List Token) : Prop :=
  (∃ e, (readTokens depth ts none).2 = some (.reading e) ∧ e.isIncomplete = false) ∧
    ∀ us, readTokens depth (ts ++ us) none = readTokens depth ts none

variable {depth : Nat} {ts : List Token} {data : List Datum}

theorem Whole.readsThrough (h : Whole depth ts data) : ReadsThrough depth ts := by
  have hread : readTokens depth ts none = (data, none) := h.read none
  refine ⟨by rw [hread], fun us => ?_⟩
  rw [hread]
  exact h none us

theorem Unfinished.canBeCompleted {form : OpenForm} (h : Unfinished depth ts data form) :
    CanBeCompleted depth ts :=
  ⟨⟨form.unfinished, by rw [h.read none]; rfl, isIncomplete_unfinished form⟩, h.completed⟩

theorem Refused.staysRefused {e : ReadError} (h : Refused depth ts data (.reading e)) :
    StaysRefused depth ts := by
  have hread := h.read_self none
  refine ⟨⟨e, by rw [hread], ?_⟩, fun us => by rw [hread, h.read none us]⟩
  cases h.final with
  | reading hcomplete => exact hcomplete

/-- The fault of a row tells the three kinds apart. -/
theorem kinds_exclusive (depth : Nat) (ts : List Token) :
    ¬ (ReadsThrough depth ts ∧ CanBeCompleted depth ts) ∧
    ¬ (ReadsThrough depth ts ∧ StaysRefused depth ts) ∧
    ¬ (CanBeCompleted depth ts ∧ StaysRefused depth ts) := by
  refine ⟨?_, ?_, ?_⟩
  · rintro ⟨⟨hnone, -⟩, ⟨e, he, -⟩, -⟩
    simp [hnone] at he
  · rintro ⟨⟨hnone, -⟩, ⟨e, he, -⟩, -⟩
    simp [hnone] at he
  · rintro ⟨⟨⟨e, he, hincomplete⟩, -⟩, ⟨e', he', hcomplete⟩, -⟩
    cases he.symm.trans he'
    simp [hincomplete] at hcomplete

end Row

open Row (ReadsThrough CanBeCompleted StaysRefused)

/-- **The fault of a row of tokens tells what can become of it.** Nesting
beyond the limit aside, every row is of exactly one of three kinds: it
reads through to whatever follows, it can be completed, or it stays
refused. -/
theorem row_trichotomy (depth : Nat) (ts : List Token)
    (hdeep : (readTokens depth ts none).2 ≠ some .tooDeep) :
    (ReadsThrough depth ts ∧ ¬ CanBeCompleted depth ts ∧ ¬ StaysRefused depth ts) ∨
    (¬ ReadsThrough depth ts ∧ CanBeCompleted depth ts ∧ ¬ StaysRefused depth ts) ∨
    (¬ ReadsThrough depth ts ∧ ¬ CanBeCompleted depth ts ∧ StaysRefused depth ts) := by
  obtain ⟨hfirst, hsecond, hthird⟩ := Row.kinds_exclusive depth ts
  obtain ⟨data, hwhole | ⟨form, hunfinished⟩ | ⟨f, hrefused⟩⟩ := Row.cases depth ts
  · have hkind := hwhole.readsThrough
    exact .inl ⟨hkind, fun h => hfirst ⟨hkind, h⟩, fun h => hsecond ⟨hkind, h⟩⟩
  · have hkind := hunfinished.canBeCompleted
    exact .inr (.inl ⟨fun h => hfirst ⟨h, hkind⟩, hkind, fun h => hthird ⟨hkind, h⟩⟩)
  · cases hrefused.final with
    | tooDeep => exact absurd (by rw [hrefused.read_self none]) hdeep
    | reading _ =>
        have hkind := hrefused.staysRefused
        exact .inr (.inr ⟨fun h => hsecond ⟨h, hkind⟩, fun h => hthird ⟨h, hkind⟩, hkind⟩)

/-- The tokens of `'(a . #('b`: a quotation, a list behind its dot, and a
vector are open. -/
def openRow : List Token :=
  [⟨.quote, "'"⟩, ⟨.lparen, "("⟩, ⟨.symbol, "a"⟩, ⟨.symbol, "."⟩, ⟨.vector, "#("⟩,
    ⟨.quote, "'"⟩, ⟨.symbol, "b"⟩]

/-- The theorem at that row, at the row that `)) c` completes it to, and at
the row that `) d` spoils it to. -/
theorem row_trichotomy_openRow :
    CanBeCompleted 4 openRow ∧
    ReadsThrough 4 (openRow ++ [⟨.rparen, ")"⟩, ⟨.rparen, ")"⟩, ⟨.symbol, "c"⟩]) ∧
    StaysRefused 4 (openRow ++ [⟨.rparen, ")"⟩, ⟨.symbol, "d"⟩]) := by
  refine ⟨?_, ?_, ?_⟩
  · have hfault : (readTokens 4 openRow none).2 = some (.reading .openVector) := by decide
    rcases row_trichotomy 4 openRow (by rw [hfault]; decide) with
      ⟨h, -, -⟩ | ⟨-, h, -⟩ | ⟨-, -, h⟩
    · cases hfault.symm.trans h.1
    · exact h
    · obtain ⟨⟨e, he, hcomplete⟩, -⟩ := h
      cases hfault.symm.trans he
      cases hcomplete
  · have hfault : (readTokens 4 (openRow ++
        [⟨.rparen, ")"⟩, ⟨.rparen, ")"⟩, ⟨.symbol, "c"⟩]) none).2 = none := by decide
    rcases row_trichotomy 4 _ (by rw [hfault]; decide) with
      ⟨h, -, -⟩ | ⟨-, ⟨⟨e, he, -⟩, -⟩, -⟩ | ⟨-, -, ⟨e, he, -⟩, -⟩
    · exact h
    · cases hfault.symm.trans he
    · cases hfault.symm.trans he
  · have hfault : (readTokens 4 (openRow ++
        [⟨.rparen, ")"⟩, ⟨.symbol, "d"⟩]) none).2 = some (.reading .longTail) := by decide
    rcases row_trichotomy 4 _ (by rw [hfault]; decide) with
      ⟨h, -, -⟩ | ⟨-, h, -⟩ | ⟨-, -, h⟩
    · cases hfault.symm.trans h.1
    · obtain ⟨⟨e, he, hincomplete⟩, -⟩ := h
      cases hfault.symm.trans he
      cases hincomplete
    · exact h

end MiniScheme
