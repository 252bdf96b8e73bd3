import MiniScheme.Proofs.Lockstep
import MiniScheme.Proofs.Spine

/-!
# `MiniScheme.Proofs.OrdinaryFaults`: how single actions can fail

Two faults are none that a program should ever see: that a walk along a list
does not end, and that a primitive is declared for a number of arguments that
its operation does not take. All others are ordinary (`Fault.IsOrdinary`).

This file says for each action of the evaluator under which condition it
fails with ordinary faults only. Most need none. A walk needs a chain of
pairs that ends, and a primitive one that is declared as its operation
(`Primitive.IsDeclared`).
-/

set_option autoImplicit false

namespace MiniScheme

/-- An error of the program that is run. -/
def Fault.IsError : Fault → Prop
  | .operandCount .. | .outOfRange | .tooManyDigits | .tooDeep | .endless => False
  | _ => True

/-- A fault that a program may end with: an error, or a limit on digits, on
the range of numbers or on nesting. -/
inductive Fault.IsOrdinary : Fault → Prop
  | error {f : Fault} (isError : f.IsError) : IsOrdinary f
  | tooManyDigits : IsOrdinary .tooManyDigits
  | outOfRange : IsOrdinary .outOfRange
  | tooDeep : IsOrdinary .tooDeep

theorem IsLimit.isOrdinary {f : Fault} (h : IsLimit f) : f.IsOrdinary := by
  cases h with
  | tooDeep => exact .tooDeep
  | tooManyDigits => exact .tooManyDigits

/-- The primitive takes as many arguments as its operation. -/
def Primitive.IsDeclared (p : Primitive) : Prop := p.arity = p.operation.arity

theorem isDeclared_of_mem_standardPrimitives {p : Primitive} (h : p ∈ standardPrimitives) :
    p.IsDeclared := by
  obtain ⟨op, -, rfl⟩ := List.mem_map.mp h
  rfl

/-- On this machine the action fails with ordinary faults only. -/
def FailsOrdinarily {α : Type} (x : Eval α) (m : Machine) : Prop :=
  ∀ f k, x m = .error f k → f.IsOrdinary

namespace FailsOrdinarily

variable {α β : Type} {m : Machine} {depth : Nat}

theorem pure (a : α) : FailsOrdinarily (pure a) m := by rintro f k ⟨⟩

theorem throw {f : Fault} (h : f.IsOrdinary) : FailsOrdinarily (throw f : Eval α) m := by
  rintro f k ⟨⟩
  exact h

theorem change (f : Store → α × Store) : FailsOrdinarily (change f) m := by rintro f k ⟨⟩

theorem inquire (f : Store → α) : FailsOrdinarily (inquire f) m := by rintro f k ⟨⟩

theorem bind {x : Eval α} {f : α → Eval β} (hx : FailsOrdinarily x m)
    (hf : ∀ a k, x m = .ok a k → FailsOrdinarily (f a) k) : FailsOrdinarily (x >>= f) m := by
  intro e k h
  rcases bind_eq_error h with h | ⟨a, k', ha, h⟩
  · exact hx e k h
  · exact hf a k' ha e k h

theorem examine {f : Store → Except Fault α} (h : ∀ e, f m.store = .error e → e.IsOrdinary) :
    FailsOrdinarily (examine f) m := by
  intro e k he
  unfold MiniScheme.examine at he
  split at he
  · cases he
  · rename_i heq
    cases he
    exact h _ heq

/-- A note fails for nesting only. -/
theorem note (event : Store → Except Fault Event) : FailsOrdinarily (note event) m := by
  intro e k he
  unfold MiniScheme.note at he
  split at he
  · cases he
  · split at he
    · cases he
    · cases he
      exact .tooDeep
    · cases he

/-! ### Messages and variables -/

theorem display (depth : Nat) (v : Value) :
    FailsOrdinarily (MiniScheme.examine fun s => s.display depth v) m :=
  .examine fun _ he =>
    ((Store.settles_display (.refl m.store) (Nat.le_refl depth) v).limit _ he).isOrdinary

theorem failShowing {fault : String → Fault} (v : Value) (h : ∀ shown, (fault shown).IsError) :
    FailsOrdinarily (failShowing depth fault v : Eval α) m :=
  (display depth v).bind fun shown _ _ => .throw (.error (h shown))

theorem refuse (expr : Value) : FailsOrdinarily (refuse depth expr) m := by
  refine bind (.examine fun e he => ?_) fun shown _ _ => .throw (.error trivial)
  exact ((Store.settles_inspect (.refl m.store) (Nat.le_refl depth) expr).limit _ he).isOrdinary

theorem lookup (env : Ref) (name : String) : FailsOrdinarily (lookup env name) m := by
  refine .examine fun e he => ?_
  split at he
  · cases he
  · cases he
    exact .error trivial

theorem assign (env : Ref) (name : String) (v : Value) : FailsOrdinarily (assign env name v) m := by
  intro e k he
  rcases assign_run env name v m with ⟨r, -, k', hok, -⟩ | ⟨-, hfail⟩
  · cases hok.symm.trans he
  · cases hfail.symm.trans he
    exact .error trivial

/-! ### Closures -/

theorem spine {v last : Value} {items : List Value} (h : m.store.Spine v items last) :
    FailsOrdinarily (spine v) m := by
  refine .examine fun e he => ?_
  rw [Store.spine?_eq_some_iff.mpr h] at he
  cases he

/-- Parameters are paired with values; only to count them are they walked to
their end. -/
theorem pairFormals (formals : Value) (count : Nat) (values : List Value) :
    ∀ {paired : Nat} {bindings : List (String × Value)} {p last : Value} {items : List Value},
      m.store.Spine p items last →
      FailsOrdinarily (pairFormals depth formals count paired bindings p values) m := by
  induction values with
  | nil =>
      intro paired bindings p last items hspine
      rw [pairFormals.eq_def]
      refine bind (.inquire _) fun found k hfound => ?_
      cases hfound
      split
      · split
        · exact bind (.spine hspine) fun missing _ _ => .throw (.error trivial)
        · exact .failShowing _ fun _ => trivial
      · split
        · exact .pure _
        · exact bind (.change _) fun _ _ _ => .pure _
        · exact .failShowing _ fun _ => trivial
  | cons v values ih =>
      intro paired bindings p last items hspine
      rw [pairFormals.eq_def]
      refine bind (.inquire _) fun found k hfound => ?_
      cases hfound
      dsimp only
      cases hspine with
      | last cell =>
          rw [cell]
          dsimp only
          split
          · exact .throw (.error trivial)
          · exact bind (.change _) fun _ _ _ => .pure _
          · exact .failShowing _ fun _ => trivial
      | link cell rest =>
          rw [cell]
          dsimp only
          split
          · exact ih rest
          · exact .failShowing _ fun _ => trivial

theorem enterClosure {fn : Value} {k : Closure} {args : List Value} {last : Value}
    {items : List Value} (h : m.store.Spine k.formals items last) :
    FailsOrdinarily (enterClosure depth fn k args) m := by
  refine bind (bind (.pairFormals _ _ _ h) fun _ _ _ => bind (.change _) fun _ _ _ => ?_) ?_
  · exact bind (.note _) fun _ _ _ => .pure _
  · exact fun _ _ _ => bind (.note _) fun _ _ _ => .pure _

theorem makeClosure (env : Ref) (formals body : Value) :
    FailsOrdinarily (makeClosure depth env formals body) m :=
  bind (.change _) fun _ _ _ => bind (.note _) fun _ _ _ => .pure _

/-! ### Operations -/

theorem pairArgument (op : Operation) (v : Value) :
    FailsOrdinarily (op.pairArgument depth v) m := by
  refine bind (.inquire _) fun found k _ => ?_
  split
  · exact .pure _
  · exact .failShowing _ fun _ => trivial

theorem numberArguments (op : Operation) (a b : Value) :
    FailsOrdinarily (op.numberArguments depth a b) m := by
  unfold Operation.numberArguments
  split
  · exact .pure _
  · exact bind (.display _ _) fun _ _ _ => bind (.display _ _) fun _ _ _ => .throw (.error trivial)

theorem arithmetic (op : Operation) (f : Number → Number → Option Number) (a b : Value) :
    FailsOrdinarily (op.arithmetic depth f a b) m := by
  refine bind (.numberArguments op a b) fun args k _ => ?_
  dsimp only
  split
  · exact .pure _
  · exact .throw .outOfRange

theorem comparison (op : Operation) (f : Number → Number → Bool) (a b : Value) :
    FailsOrdinarily (op.comparison depth f a b) m :=
  bind (.numberArguments op a b) fun _ _ _ => .pure _

theorem operation {op : Operation} {args : List Value} (h : args.length = op.arity) :
    FailsOrdinarily (op.run depth args) m := by
  unfold Operation.run
  split
  case _ | _ => exact .change _
  case _ | _ => exact bind (.pairArgument _ _) fun _ _ _ => .pure _
  case _ | _ => exact bind (.pairArgument _ _) fun _ _ _ => .change _
  case _ | _ | _ => exact .arithmetic _ _ _ _
  case _ | _ | _ => exact .comparison _ _ _ _
  · exact .pure _
  · exact .inquire _
  · exact .pure _
  · exact .pure _
  · -- The listed cases are all those with as many arguments as the operation has.
    exfalso
    match op, args with
    | op, [] => cases op <;> simp [Operation.arity] at h
    | op, [a] => cases op <;> simp_all [Operation.arity]
    | op, [a, b] => cases op <;> simp_all [Operation.arity]
    | op, a :: b :: c :: rest => cases op <;> simp [Operation.arity] at h

theorem applyPrimitive {p : Primitive} (h : p.IsDeclared) (args : List Value) :
    FailsOrdinarily (applyPrimitive depth p args) m := by
  unfold MiniScheme.applyPrimitive
  by_cases harity : (args.length : Int) ≠ p.arity
  · rw [if_pos harity]
    exact bind (.throw (.error trivial)) fun _ _ hok => by cases hok
  · rw [if_neg harity]
    have hlength : args.length = p.operation.arity := by
      have hdeclared : p.arity = p.operation.arity := h
      omega
    exact bind (.note _) fun _ _ _ => .operation hlength

/-- What is no closure is applied with ordinary faults, if primitives are
declared as their operations. -/
theorem applyWith {fn : Value} (hfn : ∀ r, fn ≠ .closure r) (args : List Value)
    (hprimitives : ∀ p ∈ m.store.primitives, p.IsDeclared) :
    FailsOrdinarily (applyWith depth idle fn args) m := by
  cases fn with
  | primitive r =>
      refine bind (.inquire _) fun found k hfound => ?_
      cases hfound
      dsimp only
      cases hp : m.store.primitives[r]? with
      | none => exact .failShowing _ fun _ => trivial
      | some p => exact .applyPrimitive (hprimitives p (Array.mem_of_getElem? hp)) args
  | closure r => exact absurd rfl (hfn r)
  | _ => exact .failShowing _ fun _ => trivial

end FailsOrdinarily

end MiniScheme
