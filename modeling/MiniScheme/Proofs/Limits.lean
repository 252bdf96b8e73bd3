import Mathlib.Order.Monotone.Basic
import MiniScheme.Proofs.Pieces

/-!
# `MiniScheme.Proofs.Limits`: what a higher limit on nesting changes

Reader, evaluator and printer all count nesting down from a limit and fail
when none is left. Nothing else looks at the count, and nothing that goes on
after a fault hides this one, so two runs with different limits do the same
until the one with the lower limit fails for it.

For the evaluator that is one more relation between two computations that
run in lockstep (`Outlasts`). The reader is a recursion on the tokens, where
a higher limit leaves more room at every place (`feed_add`).
-/

set_option autoImplicit false

namespace MiniScheme

/-! ### Evaluation -/

/-- The second computation does the same as the first, unless that is nested
too deeply. -/
def Outlasts {α : Type} (x y : Eval α) : Prop := ∀ m, (∃ k, x m = .error .tooDeep k) ∨ y m = x m

namespace Outlasts

variable {α β : Type}

protected theorem refl (x : Eval α) : Outlasts x x := fun _ => .inr rfl

theorem bind {x y : Eval α} {f g : α → Eval β} (hx : Outlasts x y)
    (hf : ∀ a, Outlasts (f a) (g a)) : Outlasts (x >>= f) (y >>= g) := by
  intro m
  rcases hx m with ⟨k, hdeep⟩ | hsame
  · exact .inl ⟨k, bind_run_error hdeep⟩
  · rw [bind_run, bind_run, hsame]
    cases x m with
    | ok a k => exact hf a k
    | error e k => exact .inr rfl

theorem examine {f g : Store → Except Fault α} (h : Query f g) :
    Outlasts (examine f) (examine g) := by
  intro m
  unfold MiniScheme.examine
  rcases h.outlasts m.store with hdeep | hsame
  · rw [hdeep]
    exact .inl ⟨m, rfl⟩
  · rw [hsame]
    exact .inr rfl

/-- An event that is nested too deeply is a fault of the run, unlike one with
too many digits. -/
theorem note {f g : Store → Except Fault Event} (h : Query f g) : Outlasts (note f) (note g) := by
  intro m
  unfold MiniScheme.note
  cases m.journal with
  | none => exact .inr rfl
  | some events =>
      rcases h.outlasts m.store with hdeep | hsame
      · simp only [hdeep]
        exact .inl ⟨m, rfl⟩
      · exact .inr (by simp only [hsame])

/-- A higher limit lets every action do the same. -/
def actions : FullLockstep where
  Rel := Outlasts
  pure _ := .refl _
  bind := .bind
  throw _ := .refl _
  inquire _ := .refl _
  change _ := .refl _
  examine := .examine
  note := .note
  closure _ := .refl _
  newClosure _ := .refl _

theorem evaluate (depth more : Nat) (env : Ref) (expr : Value) :
    Outlasts (evaluate depth env expr) (evaluate (depth + more) env expr) :=
  actions.evaluate (fun _ _ m => .inl ⟨m, rfl⟩) depth env expr

theorem evalData (depth more : Nat) (env : Ref) (data : List Datum) :
    ∀ result, Outlasts (evalData depth env result data)
      (evalData (depth + more) env result data) := by
  induction data with
  | nil => intro result; exact .refl _
  | cons d data ih =>
      intro result
      exact (Outlasts.refl (load d)).bind fun expr =>
        (Outlasts.evaluate depth more env expr).bind fun v => ih v

end Outlasts

/-! ### Reading -/

namespace Datum

/-- The same step with `more` room left. -/
def Step.add (more : Nat) : Step → Step
  | .more room stack => .more (room + more) stack
  | step => step

variable (more : Nat)

theorem deliver_add (stack : List OpenForm) : ∀ (d : Datum) (room : Nat),
    deliver d (room + more) stack = (deliver d room stack).add more := by
  induction stack with
  | nil => intro d room; rfl
  | cons form stack ih =>
      intro d room
      cases form with
      | quotation => rw [deliver, deliver, ← ih, Nat.add_right_comm]
      | list | tail | ending | vector => rfl

theorem openForm_add (form : OpenForm) (room : Nat) (stack : List OpenForm) :
    openForm form room stack = .reject .tooDeep ∨
      openForm form (room + more) stack = (openForm form room stack).add more := by
  cases room with
  | zero => exact .inl rfl
  | succ room =>
      right
      rw [Nat.add_right_comm]
      rfl

theorem start_add (room : Nat) (stack : List OpenForm) (t : Token) :
    start room stack t = .reject .tooDeep ∨
      start (room + more) stack t = (start room stack t).add more := by
  unfold start
  cases t.kind with
  | symbol =>
      right
      dsimp only
      split
      · rfl
      · exact deliver_add more stack _ room
  | boolean | string => exact .inr (deliver_add more stack _ room)
  | quote | lparen | vector => exact openForm_add more _ room stack
  | rparen | other => exact .inr rfl

/-- With more room a token does the same, unless it is the one that there was
no room for. -/
theorem feed_add (room : Nat) (stack : List OpenForm) (t : Token) :
    feed room stack t = .reject .tooDeep ∨
      feed (room + more) stack t = (feed room stack t).add more := by
  have hclose (d : Datum) (outer : List OpenForm) :
      deliver d (room + more + 1) outer = (deliver d (room + 1) outer).add more := by
    rw [Nat.add_right_comm]
    exact deliver_add more outer d (room + 1)
  cases stack with
  | nil => exact start_add more room [] t
  | cons form outer =>
      cases form with
      | quotation | tail =>
          rw [feed, feed]
          split
          · exact .inr rfl
          · exact start_add more room _ t
      | list items =>
          rw [feed, feed]
          split
          · exact .inr (hclose _ outer)
          · split
            · right
              split <;> rfl
            · exact start_add more room _ t
      | ending items tail =>
          rw [feed, feed]
          right
          split
          · exact hclose _ outer
          · rfl
      | vector items =>
          rw [feed, feed]
          split
          · exact .inr (hclose _ outer)
          · exact start_add more room _ t

end Datum

/-- With more room the rest of a text is read as before, unless there was too
little room for it; then at least the data before that place are the same. -/
theorem Cursor.restFrom_add (depth more : Nat) (fault : Option ReadError) (ts : List Token) :
    ∀ (read : List Datum) (room : Nat) (stack : List OpenForm),
      ((restFrom depth fault read room stack ts).2.1 = some .tooDeep ∧
        (restFrom depth fault read room stack ts).1
          <+: (restFrom (depth + more) fault read (room + more) stack ts).1) ∨
      restFrom (depth + more) fault read (room + more) stack ts
        = restFrom depth fault read room stack ts := by
  induction ts with
  | nil => intro read room stack; exact .inr rfl
  | cons t ts ih =>
      intro read room stack
      rcases Datum.feed_add more room stack t with hdeep | hsame
      · -- The first reader stops here. The second one only adds data.
        left
        rw [restFrom, hdeep]
        refine ⟨rfl, ?_⟩
        rw [restFrom_read]
        exact List.prefix_append _ _
      · rw [restFrom, restFrom, hsame]
        cases Datum.feed room stack t with
        | done d => exact ih (d :: read) depth []
        | more room' stack' => exact ih read room' stack'
        | reject | decline => exact .inr rfl

theorem read_add (depth more : Nat) (source : String) :
    ((read depth source).2 = some .tooDeep ∧
      (read depth source).1 <+: (read (depth + more) source).1) ∨
    read (depth + more) source = read depth source := by
  rw [read_eq_readTokens, read_eq_readTokens, readTokens_eq_restFrom, readTokens_eq_restFrom]
  refine (Cursor.restFrom_add depth more (lex source).2 (lex source).1 [] depth []).imp id ?_
  intro hsame
  rw [hsame]

/-! ### Programs -/

theorem Outlasts.run (depth more : Nat) (env : Ref) (source : String) :
    Outlasts (run depth env source) (run (depth + more) env source) := by
  obtain ⟨data, fault, hread⟩ : ∃ data fault, read depth source = (data, fault) := ⟨_, _, rfl⟩
  rcases read_add depth more source with ⟨hdeep, hfirst⟩ | hsame
  · -- The text is nested too deeply, but a fault of evaluation may come first.
    rw [hread] at hdeep hfirst
    intro m
    rw [run_eq hread]
    cases hdata : MiniScheme.evalData depth env .emptySequence data m with
    | ok v k =>
        refine .inl ⟨k, (bind_run_ok hdata).trans ?_⟩
        rw [show fault = some .tooDeep from hdeep]
        rfl
    | error f k =>
        rw [bind_run_error hdata]
        -- Under the higher limit these data come first too, and end the run as before.
        rcases Outlasts.evalData depth more env data .emptySequence m with ⟨k', hnested⟩ | hsame
        · cases hdata.symm.trans hnested
          exact .inl ⟨k, rfl⟩
        · exact .inr (run_eq_error_of_first hfirst (hsame.trans hdata))
  · rw [run_eq hread, run_eq (hsame.trans hread)]
    exact (Outlasts.evalData depth more env data _).bind fun v => .refl _

theorem monotone_nesting : Monotone nesting := by
  intro limit limit' hle
  unfold nesting
  omega

/-- **Raising the limit on nesting changes nothing but its own fault.** Let
the nesting that a limit allows grow with it. If a program under some limit
ends in anything but nesting that is too deep, a value or another fault, then
under a higher limit it ends in the same and leaves the same machine. -/
theorem run_raised_limit (bound : Nat → Nat) (hbound : Monotone bound) {limit limit' : Nat}
    (hle : limit ≤ limit') (env : Ref) (source : String) (m : Machine)
    (hended : ∀ k, run (bound limit) env source m ≠ .error .tooDeep k) :
    run (bound limit') env source m = run (bound limit) env source m := by
  obtain ⟨more, hmore⟩ := Nat.exists_eq_add_of_le (hbound hle)
  rw [hmore]
  exact (Outlasts.run (bound limit) more env source m).resolve_left fun ⟨k, hk⟩ => hended k hk

/-- A program with a fault before a recursion that has no end. -/
def limitedProgram : String :=
  "(set! it (lambda () (it))) (begin that (it))"

/-- The fault that the program has under a low limit is the one it has under
the usual one. -/
theorem run_raised_limit_unbound :
    run (nesting defaultLimit) 0 limitedProgram piecesMachine
      = .error (.unbound "that") (outcome (run 6 0 limitedProgram piecesMachine)) := by
  have hlow : run (nesting 20) 0 limitedProgram piecesMachine
      = .error (.unbound "that") (outcome (run 6 0 limitedProgram piecesMachine)) := by
    decide +kernel
  have hended : ∀ k, run (nesting 20) 0 limitedProgram piecesMachine ≠ .error .tooDeep k := by
    intro k hdeep
    cases hlow.symm.trans hdeep
  rw [← hlow]
  exact run_raised_limit nesting monotone_nesting (by decide) 0 limitedProgram piecesMachine hended

end MiniScheme
