import MiniScheme.Proofs.Lockstep

/-!
# `MiniScheme.Proofs.JournalIndependence`: nothing reads the journal

Evaluation adds to the journal and never looks at it. Had other events
been in it before, every computation would end in the same value or fault,
with the same store and the same new events (`Oblivious`). So it does not
matter to a program whether somebody empties the journal from time to time,
as a console does after each of its results.

`oblivious_evaluate` is the statement about whole evaluations. A computation
that is put together from oblivious ones is oblivious itself, so it is enough
to look at the actions of the evaluator.
-/

set_option autoImplicit false

namespace MiniScheme

/-- The machine, had these events been noted before all others. Without a
journal there is no difference. -/
def Machine.after (older : List Event) (m : Machine) : Machine :=
  { m with journal := m.journal.map (· ++ older) }

@[simp] theorem Machine.after_store (older : List Event) (m : Machine) :
    (m.after older).store = m.store := rfl

@[simp] theorem Machine.after_nil (m : Machine) : m.after [] = m := by
  obtain ⟨store, _ | events⟩ := m <;> simp [Machine.after]

/-- The result, had these events been noted before all others. -/
def resultAfter {α : Type} (older : List Event) :
    EStateM.Result Fault Machine α → EStateM.Result Fault Machine α
  | .ok a m => .ok a (m.after older)
  | .error e m => .error e (m.after older)

/-- The computation does not look at the journal it finds, and never stops
or starts to keep one. -/
structure Oblivious {α : Type} (x : Eval α) : Prop where
  run_after : ∀ older m, x (m.after older) = resultAfter older (x m)
  kept : ∀ m, (outcome (x m)).journal.isSome = m.journal.isSome

namespace Oblivious

variable {α β : Type}

/-! ### How computations are put together -/

theorem pure (a : α) : Oblivious (pure a : Eval α) := ⟨fun _ _ => rfl, fun _ => rfl⟩

theorem throw (e : Fault) : Oblivious (throw e : Eval α) := ⟨fun _ _ => rfl, fun _ => rfl⟩

theorem inquire (f : Store → α) : Oblivious (inquire f) := ⟨fun _ _ => rfl, fun _ => rfl⟩

theorem change (f : Store → α × Store) : Oblivious (change f) := ⟨fun _ _ => rfl, fun _ => rfl⟩

theorem bind {x : Eval α} {f : α → Eval β} (hx : Oblivious x) (hf : ∀ a, Oblivious (f a)) :
    Oblivious (x >>= f) := by
  constructor
  · intro older m
    rw [bind_run, bind_run, hx.run_after]
    cases x m with
    | ok a k => exact (hf a).run_after older k
    | error e k => rfl
  · intro m
    have hkept := hx.kept m
    rw [bind_run]
    cases h : x m with
    | ok a k => rw [h] at hkept; exact ((hf a).kept k).trans hkept
    | error e k => rw [h] at hkept; exact hkept

theorem examine (f : Store → Except Fault α) : Oblivious (examine f) := by
  constructor
  · intro older m
    unfold MiniScheme.examine
    rw [Machine.after_store]
    cases f m.store <;> rfl
  · intro m
    unfold MiniScheme.examine
    cases f m.store <;> rfl

theorem note (event : Store → Except Fault Event) : Oblivious (note event) := by
  constructor
  · rintro older ⟨store, _ | events⟩
    · rfl
    · simp only [MiniScheme.note, Machine.after, Option.map_some]
      cases event store with
      | ok e => rfl
      | error f => cases f <;> rfl
  · rintro ⟨store, _ | events⟩
    · rfl
    · simp only [MiniScheme.note]
      cases event store with
      | ok e => rfl
      | error f => cases f <;> rfl

theorem load (d : Datum) : Oblivious (load d) := change _

end Oblivious

/-! ### Evaluations -/

/-- No action looks at the journal. -/
def obliviousActions : Trait where
  Holds := Oblivious
  pure := .pure
  bind := .bind
  throw _ := .throw _
  inquire _ := .inquire _
  change _ := .change _
  examine _ := .examine _
  note _ := .note _

/-- Evaluation does not look at the journal. -/
theorem oblivious_evaluate (depth : Nat) (env : Ref) (expr : Value) :
    Oblivious (evaluate depth env expr) :=
  obliviousActions.evaluate (fun _ => .inquire _) (fun _ => .change _) depth env expr

end MiniScheme
