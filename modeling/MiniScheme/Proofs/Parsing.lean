import MiniScheme.Datum.Reader

/-!
# `MiniScheme.Proofs.Parsing`: reading tokens piece by piece

`Datum.Step.Regular` lists what one token can do, whatever forms are open:
complete the datum, leave forms open, or be a fault that no further token
mends. `feed_regular` is the one place where all cases of a token are gone
through; statements about rows of tokens go back to it.

`Cursor.nextFrom` reads one datum and `Cursor.restFrom` all that follow.
`restFrom_eq` says that the second is the first over and over again, so
statements about one datum carry over to rows of them.

`Cursor.proceed` is what a reader does after a token, given what the token
did to the open forms. It lets a lemma about a whole datum say where the
reader stands behind it: as if the datum had been delivered in one step.

`readTokens` is what a row of tokens is read as.
-/

set_option autoImplicit false

namespace MiniScheme

namespace Datum

/-! ### Where a datum starts -/

/-- The forms that are open wait for a datum: the innermost one is not a
list that has its tail already. -/
def Awaits : List OpenForm → Prop
  | .ending .. :: _ => False
  | _ => True

/-- A token that is neither a closing parenthesis nor a dot starts a datum
wherever one is awaited. -/
theorem feed_eq_start {room : Nat} {stack : List OpenForm} {t : Token} (hstack : Awaits stack)
    (hclose : t.kind ≠ .rparen) (hdot : t.kind = .symbol → t.text ≠ ".") :
    feed room stack t = start room stack t := by
  have hdot' : ¬(t.kind = .symbol ∧ t.text = ".") := fun h => hdot h.1 h.2
  cases stack with
  | nil => rfl
  | cons form outer =>
      cases form with
      | ending items tail => exact absurd hstack id
      | quotation | tail | vector => simp [feed, hclose]
      | list items => simp [feed, hclose, hdot']

/-! ### What a token can do -/

/-- A fault of reading that no further token mends. -/
inductive IsFinal : Fault → Prop
  | tooDeep : IsFinal .tooDeep
  | reading {e : ReadError} (complete : e.isIncomplete = false) : IsFinal (.reading e)

/-- What a token can do when so many forms are open or may still be opened:
it completes the datum, or leaves a form open and the number as it was, or
is a fault that stays. -/
def Step.Regular (limit : Nat) : Step → Prop
  | .done _ => True
  | .more room stack => stack ≠ [] ∧ room + stack.length = limit
  | .reject f | .decline f => IsFinal f

/-- Delivering a datum completes it or leaves forms open, no more than
before. -/
theorem deliver_cases (d : Datum) (room : Nat) (stack : List OpenForm) :
    (∃ e, deliver d room stack = .done e) ∨
    ∃ room' stack', deliver d room stack = .more room' stack' ∧ stack' ≠ [] ∧
      stack'.length ≤ stack.length ∧ room' + stack'.length = room + stack.length := by
  induction stack generalizing d room with
  | nil => exact .inl ⟨d, rfl⟩
  | cons form stack ih =>
      cases form with
      | quotation =>
          refine (ih (.quotation d) (room + 1)).imp_right ?_
          rintro ⟨room', stack', hmore, hne, hle, hlimit⟩
          refine ⟨room', stack', hmore, hne, ?_, ?_⟩ <;> rw [List.length_cons] <;> omega
      | list | tail | ending | vector =>
          exact .inr ⟨room, _, rfl, by simp, by simp, by simp⟩

/-- Delivering a datum never fails. -/
theorem deliver_ne_decline (d : Datum) (room : Nat) (stack : List OpenForm) (e : Fault) :
    deliver d room stack ≠ .decline e := by
  induction stack generalizing d room with
  | nil => intro h; cases h
  | cons form stack ih =>
      cases form with
      | quotation => exact ih _ _
      | list | tail | ending | vector => intro h; cases h

theorem deliver_regular (d : Datum) (room : Nat) (stack : List OpenForm) :
    (deliver d room stack).Regular (room + stack.length) := by
  rcases deliver_cases d room stack with ⟨e, h⟩ | ⟨room', stack', h, hne, -, hlimit⟩
  · rw [h]
    trivial
  · rw [h]
    exact ⟨hne, hlimit⟩

theorem openForm_regular (form : OpenForm) (room : Nat) (stack : List OpenForm) :
    (openForm form room stack).Regular (room + stack.length) := by
  cases room with
  | zero => exact .tooDeep
  | succ room => exact ⟨by simp, by rw [List.length_cons]; omega⟩

theorem start_regular (room : Nat) (stack : List OpenForm) (t : Token) :
    (start room stack t).Regular (room + stack.length) := by
  unfold start
  split
  · split
    · exact .reading rfl
    · exact deliver_regular _ _ _
  · exact deliver_regular _ _ _
  · exact deliver_regular _ _ _
  · exact openForm_regular _ _ _
  · exact openForm_regular _ _ _
  · exact openForm_regular _ _ _
  · exact .reading rfl
  · exact .reading rfl

/-- A closing parenthesis delivers what it closes to the forms around. -/
theorem deliver_outer_regular (d : Datum) (room : Nat) (form : OpenForm) (outer : List OpenForm) :
    (deliver d (room + 1) outer).Regular (room + (form :: outer).length) := by
  have h := deliver_regular d (room + 1) outer
  rwa [show room + 1 + outer.length = room + (form :: outer).length by
    rw [List.length_cons]; omega] at h

theorem feed_regular (room : Nat) (stack : List OpenForm) (t : Token) :
    (feed room stack t).Regular (room + stack.length) := by
  cases stack with
  | nil => exact start_regular room [] t
  | cons form outer =>
      cases form with
      | quotation =>
          rw [feed]
          split
          · exact .reading rfl
          · exact start_regular _ _ _
      | list items =>
          rw [feed]
          split
          · exact deliver_outer_regular _ _ _ _
          · split
            · split
              · exact .reading rfl
              · exact ⟨by simp, rfl⟩
            · exact start_regular _ _ _
      | tail items =>
          rw [feed]
          split
          · exact .reading rfl
          · exact start_regular _ _ _
      | ending items tail =>
          rw [feed]
          split
          · exact deliver_outer_regular _ _ _ _
          · exact .reading rfl
      | vector items =>
          rw [feed]
          split
          · exact deliver_outer_regular _ _ _ _
          · exact start_regular _ _ _

end Datum

namespace Cursor

/-! ### Reading on -/

/-- Reads on after a step, with the tokens `ts` left. -/
def proceed (fault : Option ReadError) (ts : List Token) :
    Datum.Step → Except Fault (Option Datum) × Cursor
  | .done d => (.ok (some d), ⟨ts, fault⟩)
  | .more room stack => nextFrom fault room stack ts
  | .reject e => (.error e, ⟨ts, fault⟩)
  | .decline e => (.error e, ⟨ts, fault⟩)

/-- A token that is taken or completes a datum is one step. -/
theorem nextFrom_cons (fault : Option ReadError) (room : Nat) (stack : List OpenForm) (t : Token)
    (ts : List Token) (h : ∀ e, Datum.feed room stack t ≠ .decline e) :
    nextFrom fault room stack (t :: ts) = proceed fault ts (Datum.feed room stack t) := by
  rw [nextFrom]
  cases hfeed : Datum.feed room stack t with
  | decline e => exact absurd hfeed (h e)
  | done | more | reject => rfl

/-- Reading on to the end is reading the datum at hand, and then all
others from scratch. -/
theorem restFrom_eq (depth : Nat) (fault : Option ReadError) (ts : List Token) :
    ∀ (read : List Datum) (room : Nat) (stack : List OpenForm),
      restFrom depth fault read room stack ts =
        match nextFrom fault room stack ts with
        | (.ok (some d), rest) => restFrom depth fault (d :: read) depth [] rest.tokens
        | (.ok none, rest) => (read.reverse, none, rest)
        | (.error e, rest) => (read.reverse, some e, rest) := by
  induction ts with
  | nil =>
      intro read room stack
      rw [restFrom, nextFrom]
      cases atEnd fault stack <;> rfl
  | cons t ts ih =>
      intro read room stack
      rw [restFrom, nextFrom]
      cases Datum.feed room stack t with
      | more room stack => exact ih read room stack
      | done | reject | decline => rfl

/-- What was read before stands before what is read from here on. -/
theorem restFrom_read (depth : Nat) (fault : Option ReadError) (ts : List Token) :
    ∀ (read : List Datum) (room : Nat) (stack : List OpenForm),
      restFrom depth fault read room stack ts
        = (read.reverse ++ (restFrom depth fault [] room stack ts).1,
            (restFrom depth fault [] room stack ts).2) := by
  induction ts with
  | nil =>
      intro read room stack
      rw [restFrom, restFrom]
      cases atEnd fault stack <;> simp
  | cons t ts ih =>
      intro read room stack
      rw [restFrom, restFrom]
      cases Datum.feed room stack t with
      | done d =>
          dsimp only
          rw [ih (d :: read), ih [d]]
          simp
      | more room stack => exact ih read room stack
      | reject | decline => simp

end Cursor

namespace Datum

/-- A token that opens a form is taken wherever a datum is awaited. -/
theorem nextFrom_open {fault : Option ReadError} {room : Nat} {stack : List OpenForm} {t : Token}
    {form : OpenForm} {ts : List Token} (hstack : Awaits stack)
    (hstart : start (room + 1) stack t = openForm form (room + 1) stack)
    (hclose : t.kind ≠ .rparen) (hdot : t.kind ≠ .symbol) :
    Cursor.nextFrom fault (room + 1) stack (t :: ts)
      = Cursor.nextFrom fault room (form :: stack) ts := by
  have hfeed : feed (room + 1) stack t = .more room (form :: stack) := by
    rw [feed_eq_start hstack hclose fun h => absurd h hdot, hstart]
    rfl
  rw [Cursor.nextFrom_cons, hfeed]
  · rfl
  · rw [hfeed]
    rintro e ⟨⟩

end Datum

/-! ### Rows of tokens -/

/-- The data of a row of tokens up to its end or its first fault; behind
the last token comes the fault of the text, if it has one. -/
def readTokens (depth : Nat) (ts : List Token) (fault : Option ReadError) :
    List Datum × Option Fault :=
  let (data, fault, _) := (Cursor.mk ts fault).rest depth
  (data, fault)

/-- Reading a text is reading its tokens. -/
theorem read_eq_readTokens (depth : Nat) (source : String) :
    read depth source = readTokens depth (lex source).1 (lex source).2 := rfl

theorem readTokens_eq_restFrom (depth : Nat) (ts : List Token) (fault : Option ReadError) :
    readTokens depth ts fault
      = ((Cursor.restFrom depth fault [] depth [] ts).1,
          (Cursor.restFrom depth fault [] depth [] ts).2.1) := rfl

end MiniScheme
