import MiniScheme.Proofs.Actions
import MiniScheme.Proofs.Printing

/-!
# `MiniScheme.Proofs.Lockstep`: two evaluations side by side

Several facts about evaluation are of one kind: something holds of the few
ways in which a computation touches its machine, it survives the composition
of computations, and so it holds of the whole evaluator. This file goes
through the evaluator once for all of them.

A `Lockstep` is a relation between two computations that is kept by
composition and holds of the same action on both sides. The sides may
differ in the nesting that they may use up, which shows in printed texts
only (`Query`). Actions that look at no body of a closure are treated apart
from those that do (`FullLockstep`), so that the relation may be one between
machines with different bodies.

`FullLockstep.evaluate` is the statement about evaluations. A property of
single computations is a relation too (`Trait.lockstep`).
-/

set_option autoImplicit false

namespace MiniScheme

/-! ### Stores without the bodies of closures -/

namespace Store

theorem spine?_withoutBodies (s : Store) (v : Value) : s.withoutBodies.spine? v = s.spine? v := by
  have key : ∀ (fuel : Nat) (items : List Value) (v : Value),
      s.withoutBodies.spineFrom fuel items v = s.spineFrom fuel items v := by
    intro fuel
    induction fuel with
    | zero => intro items v; rfl
    | succ fuel ih =>
        intro items v
        rw [spineFrom, spineFrom, show s.withoutBodies.cell? v = s.cell? v from rfl]
        cases s.cell? v with
        | none => rfl
        | some c => exact ih _ _
  exact key _ _ _

theorem locate?_withoutBodies (s : Store) (env : Ref) (name : String) :
    s.withoutBodies.locate? env name = s.locate? env name := by
  have key : ∀ (fuel : Nat) (r : Option Ref),
      s.withoutBodies.chainFrom fuel r = s.chainFrom fuel r := by
    intro fuel
    induction fuel with
    | zero => intro r; rfl
    | succ fuel ih =>
        intro r
        cases r with
        | none => rfl
        | some r =>
            rw [chainFrom, chainFrom, show s.withoutBodies.frames[r]? = s.frames[r]? from rfl]
            cases s.frames[r]? with
            | none => rfl
            | some f => simp only [ih]
  exact congrArg (List.find? (s.binds name)) (key _ _)

theorem lookup?_withoutBodies (s : Store) (env : Ref) (name : String) :
    s.withoutBodies.lookup? env name = s.lookup? env name := by
  rw [lookup?, lookup?, locate?_withoutBodies]
  rfl

theorem consAll_withoutBodies (items : List Value) : ∀ (s : Store) (tail : Value),
    s.withoutBodies.consAll items tail
      = ((s.consAll items tail).1, (s.consAll items tail).2.withoutBodies) := by
  induction items with
  | nil => intro s tail; rfl
  | cons v items ih => intro s tail; exact ih (s.cons v tail).2 (s.cons v tail).1

end Store

/-! ### Examining a store -/

/-- Two ways to examine a store that may stand for each other: the second
answers as the first, unless that is nested too deeply, neither looks at
bodies of closures, and neither has a fault of source text. -/
structure Query {α : Type} (f g : Store → Except Fault α) : Prop where
  outlasts : ∀ s, f s = .error .tooDeep ∨ g s = f s
  blind : ∀ s, f s.withoutBodies = f s ∧ g s.withoutBodies = g s
  legible : ∀ s e, f s ≠ .error (.reading e) ∧ g s ≠ .error (.reading e)

namespace Query

variable {α : Type}

/-- A question that has nothing to do with nesting. -/
theorem of_eq {f : Store → Except Fault α} (hblind : ∀ s, f s.withoutBodies = f s)
    (hlegible : ∀ s e, f s ≠ .error (.reading e)) : Query f f :=
  ⟨fun _ => .inr rfl, fun s => ⟨hblind s, hblind s⟩, fun s e => ⟨hlegible s e, hlegible s e⟩⟩

/-- A text that settles at every nesting. -/
theorem of_settles (text : Nat → Store → Except Fault α)
    (h : ∀ {s t : Store} {d d' : Nat}, s.Alike t → d ≤ d' → Settles (text d s) (text d' t))
    {d d' : Nat} (hd : d ≤ d') : Query (text d) (text d') := by
  have hblind (n : Nat) (s : Store) : text n s.withoutBodies = text n s :=
    have halike := Store.Alike.withoutBodies s
    (h halike (Nat.le_refl n)).antisymm (h halike.symm (Nat.le_refl n))
  have hlegible (n : Nat) (s : Store) (e : ReadError) : text n s ≠ .error (.reading e) := by
    intro he
    cases (h (.refl s) (Nat.le_refl n)).limit _ he
  exact ⟨fun s => (h (.refl s) hd).same, fun s => ⟨hblind d s, hblind d' s⟩,
    fun s e => ⟨hlegible d s e, hlegible d' s e⟩⟩

variable {f g : Store → Except Fault α}

theorem left (h : Query f g) : Query f f :=
  of_eq (fun s => (h.blind s).1) fun s e => (h.legible s e).1

theorem right (h : Query f g) : Query g g :=
  of_eq (fun s => (h.blind s).2) fun s e => (h.legible s e).2

variable {d d' : Nat}

theorem display (hd : d ≤ d') (v : Value) :
    Query (fun s => s.display d v) (fun s => s.display d' v) :=
  of_settles (fun n s => s.display n v) (fun h hd => Store.settles_display h hd v) hd

theorem inspect (hd : d ≤ d') (v : Value) :
    Query (fun s => s.inspect d v) (fun s => s.inspect d' v) :=
  of_settles (fun n s => s.inspect n v) (fun h hd => Store.settles_inspect h hd v) hd

/-- An event that shows a value. -/
theorem displayEvent (hd : d ≤ d') (v : Value) (event : String → Event) :
    Query (fun s => do let shown ← s.display d v; .ok (event shown))
      (fun s => do let shown ← s.display d' v; .ok (event shown)) :=
  of_settles (fun n s => do let shown ← s.display n v; .ok (event shown))
    (fun h hd => (Store.settles_display h hd v).bind fun _ => .ok _) hd

/-- An event that shows a frame. -/
theorem frameEvent (hd : d ≤ d') (r : Ref) (event : String → Event) :
    Query (fun s => do let shown ← s.showFrame d r; .ok (event shown))
      (fun s => do let shown ← s.showFrame d' r; .ok (event shown)) :=
  of_settles (fun n s => do let shown ← s.showFrame n r; .ok (event shown))
    (fun h hd => (Store.settles_showFrame h hd r).bind fun _ => .ok _) hd

theorem ok (a : α) : Query (fun _ => .ok a) (fun _ => .ok a) :=
  of_eq (fun _ => rfl) (by rintro s e ⟨⟩)

end Query

/-! ### Actions -/

/-- A relation between computations that composition keeps, and that holds
of the same action on both sides if the action does not look at bodies of
closures. -/
structure Lockstep where
  Rel {α : Type} : Eval α → Eval α → Prop
  pure {α : Type} (a : α) : Rel (pure a) (pure a)
  bind {α β : Type} {x y : Eval α} {f g : α → Eval β} :
    Rel x y → (∀ a, Rel (f a) (g a)) → Rel (x >>= f) (y >>= g)
  throw {α : Type} {f : Fault} : (∀ e, f ≠ .reading e) → Rel (throw f : Eval α) (throw f)
  inquire {α : Type} {f : Store → α} : (∀ s, f s.withoutBodies = f s) →
    Rel (inquire f) (inquire f)
  change {α : Type} {f : Store → α × Store} :
    (∀ s, f s.withoutBodies = ((f s).1, (f s).2.withoutBodies)) → Rel (change f) (change f)
  examine {α : Type} {f g : Store → Except Fault α} : Query f g → Rel (examine f) (examine g)
  note {f g : Store → Except Fault Event} : Query f g → Rel (note f) (note g)

/-- A property of single computations that composition keeps, and that holds
of the actions. -/
structure Trait where
  Holds {α : Type} : Eval α → Prop
  pure {α : Type} (a : α) : Holds (pure a)
  bind {α β : Type} {x : Eval α} {f : α → Eval β} : Holds x → (∀ a, Holds (f a)) →
    Holds (x >>= f)
  throw {α : Type} {f : Fault} : (∀ e, f ≠ .reading e) → Holds (throw f : Eval α)
  inquire {α : Type} {f : Store → α} : (∀ s, f s.withoutBodies = f s) → Holds (inquire f)
  change {α : Type} {f : Store → α × Store} :
    (∀ s, f s.withoutBodies = ((f s).1, (f s).2.withoutBodies)) → Holds (change f)
  examine {α : Type} {f : Store → Except Fault α} : Query f f → Holds (examine f)
  note {f : Store → Except Fault Event} : Query f f → Holds (note f)

/-- The property of both computations is a relation between them. -/
def Trait.lockstep (T : Trait) : Lockstep where
  Rel x y := T.Holds x ∧ T.Holds y
  pure a := ⟨T.pure a, T.pure a⟩
  bind hx hf := ⟨T.bind hx.1 fun a => (hf a).1, T.bind hx.2 fun a => (hf a).2⟩
  throw hf := ⟨T.throw hf, T.throw hf⟩
  inquire hf := ⟨T.inquire hf, T.inquire hf⟩
  change hf := ⟨T.change hf, T.change hf⟩
  examine hq := ⟨T.examine hq.left, T.examine hq.right⟩
  note hq := ⟨T.note hq.left, T.note hq.right⟩

namespace Lockstep

variable (L : Lockstep) {d d' : Nat}

theorem failShowing {α : Type} (hd : d ≤ d') {fault : String → Fault}
    (hfault : ∀ shown e, fault shown ≠ .reading e) (v : Value) :
    L.Rel (failShowing d fault v : Eval α) (failShowing d' fault v) :=
  L.bind (L.examine (.display hd v)) fun shown => L.throw (hfault shown)

theorem spine (v : Value) : L.Rel (spine v) (spine v) := by
  refine L.examine (.of_eq (fun s => by rw [Store.spine?_withoutBodies]) fun s e => ?_)
  split <;> rintro ⟨⟩

/-! ### Variables and parameters -/

theorem lookup (env : Ref) (name : String) : L.Rel (lookup env name) (lookup env name) := by
  refine L.examine (.of_eq (fun s => by rw [Store.lookup?_withoutBodies]) fun s e => ?_)
  split <;> rintro ⟨⟩

theorem assign (env : Ref) (name : String) (v : Value) :
    L.Rel (assign env name v) (assign env name v) := by
  refine L.bind (L.inquire fun s => s.locate?_withoutBodies env name) fun found => ?_
  cases found with
  | none => exact L.throw (by simp)
  | some r =>
      exact L.bind (L.change fun _ => rfl) fun _ => L.bind (L.note (.ok _)) fun _ => L.pure _

theorem pairFormals (hd : d ≤ d') (formals : Value) (count : Nat) (values : List Value) :
    ∀ (paired : Nat) (bindings : List (String × Value)) (p : Value),
      L.Rel (pairFormals d formals count paired bindings p values)
        (pairFormals d' formals count paired bindings p values) := by
  induction values with
  | nil =>
      intro paired bindings p
      rw [pairFormals.eq_def, pairFormals.eq_def]
      refine L.bind (L.inquire fun _ => rfl) fun found => ?_
      -- A parameter without a value, or the end of the parameters.
      split
      · split
        · exact L.bind (L.spine _) fun _ => L.throw (by simp)
        · exact L.failShowing hd (by simp) _
      · split
        · exact L.pure _
        · exact L.bind (L.change fun s => Store.consAll_withoutBodies _ s _) fun _ => L.pure _
        · exact L.failShowing hd (by simp) _
  | cons v values ih =>
      intro paired bindings p
      rw [pairFormals.eq_def, pairFormals.eq_def]
      refine L.bind (L.inquire fun _ => rfl) fun found => ?_
      split
      · split
        · exact ih _ _ _
        · exact L.failShowing hd (by simp) _
      · split
        · exact L.throw (by simp)
        · exact L.bind (L.change fun s => Store.consAll_withoutBodies _ s _) fun _ => L.pure _
        · exact L.failShowing hd (by simp) _

theorem extend (hd : d ≤ d') (env : Ref) (formals : Value) (values : List Value) :
    L.Rel (extend d env formals values) (extend d' env formals values) :=
  L.bind (L.pairFormals hd _ _ _ _ _ _) fun _ => L.bind (L.change fun _ => rfl) fun r =>
    L.bind (L.note (.frameEvent hd r _)) fun _ => L.pure _

theorem enterClosure (hd : d ≤ d') (fn : Value) (k : Closure) (args : List Value) :
    L.Rel (enterClosure d fn k args) (enterClosure d' fn k args) :=
  L.bind (L.extend hd _ _ _) fun _ => L.bind (L.note (.displayEvent hd fn _)) fun _ => L.pure _

/-! ### Operations -/

theorem pairArgument (hd : d ≤ d') (op : Operation) (v : Value) :
    L.Rel (op.pairArgument d v) (op.pairArgument d' v) := by
  refine L.bind (L.inquire fun _ => rfl) fun found => ?_
  split
  · exact L.pure _
  · exact L.failShowing hd (by simp) _

theorem numberArguments (hd : d ≤ d') (op : Operation) (a b : Value) :
    L.Rel (op.numberArguments d a b) (op.numberArguments d' a b) := by
  unfold Operation.numberArguments
  split
  · exact L.pure _
  · exact L.bind (L.examine (.display hd _)) fun _ =>
      L.bind (L.examine (.display hd _)) fun _ => L.throw (by simp)

theorem arithmetic (hd : d ≤ d') (op : Operation) (f : Number → Number → Option Number)
    (a b : Value) : L.Rel (op.arithmetic d f a b) (op.arithmetic d' f a b) := by
  refine L.bind (L.numberArguments hd op a b) fun args => ?_
  dsimp only
  split
  · exact L.pure _
  · exact L.throw (by simp)

theorem comparison (hd : d ≤ d') (op : Operation) (f : Number → Number → Bool) (a b : Value) :
    L.Rel (op.comparison d f a b) (op.comparison d' f a b) :=
  L.bind (L.numberArguments hd op a b) fun _ => L.pure _

theorem operation (hd : d ≤ d') (op : Operation) (args : List Value) :
    L.Rel (op.run d args) (op.run d' args) := by
  unfold Operation.run
  split
  case _ | _ => exact L.change fun _ => rfl
  · exact L.bind (L.pairArgument hd _ _) fun _ => L.pure _
  · exact L.bind (L.pairArgument hd _ _) fun _ => L.pure _
  · exact L.bind (L.pairArgument hd _ _) fun _ => L.change fun _ => rfl
  · exact L.bind (L.pairArgument hd _ _) fun _ => L.change fun _ => rfl
  · exact L.arithmetic hd _ _ _ _
  · exact L.arithmetic hd _ _ _ _
  · exact L.arithmetic hd _ _ _ _
  · exact L.comparison hd _ _ _ _
  · exact L.comparison hd _ _ _ _
  · exact L.comparison hd _ _ _ _
  · exact L.pure _
  · exact L.inquire fun _ => rfl
  · exact L.pure _
  · exact L.pure _
  · exact L.throw (by simp)

theorem applyPrimitive (hd : d ≤ d') (p : Primitive) (args : List Value) :
    L.Rel (applyPrimitive d p args) (applyPrimitive d' p args) := by
  unfold MiniScheme.applyPrimitive
  split
  · exact L.bind (L.throw (by simp)) fun _ => L.bind (L.note (.ok _)) fun _ => L.operation hd _ _
  · exact L.bind (L.note (.ok _)) fun _ => L.operation hd _ _

/-- What is no closure is applied without an evaluator. -/
theorem applyWith {ev ev' : Evaluator} (hd : d ≤ d') {fn : Value} (hfn : ∀ r, fn ≠ .closure r)
    (args : List Value) : L.Rel (applyWith d ev fn args) (applyWith d' ev' fn args) := by
  cases fn with
  | primitive r =>
      refine L.bind (L.inquire fun _ => rfl) fun found => ?_
      cases found with
      | none => exact L.failShowing hd (by simp) _
      | some p => exact L.applyPrimitive hd _ _
  | closure r => exact absurd rfl (hfn r)
  | _ => exact L.failShowing hd (by simp) _

/-! ### Lists of expressions -/

theorem formOperands (form : Form) (tail : Value) :
    L.Rel (formOperands form tail) (formOperands form tail) := by
  refine L.bind (L.spine _) fun found => ?_
  dsimp only
  split
  · exact L.pure _
  · exact L.throw (by simp)

theorem refuse (hd : d ≤ d') (expr : Value) : L.Rel (refuse d expr) (refuse d' expr) :=
  L.bind (L.examine (.inspect hd expr)) fun _ => L.throw (by simp)

section Evaluators

variable {ev ev' : Evaluator}

theorem evalBody (hev : ∀ env expr, L.Rel (ev env expr) (ev' env expr)) (env : Ref) (fuel : Nat) :
    ∀ result body,
      L.Rel (evalBody ev env fuel result body) (evalBody ev' env fuel result body) := by
  induction fuel with
  | zero => exact fun _ _ => L.throw (by simp)
  | succ fuel ih =>
      intro result body
      refine L.bind (L.inquire fun _ => rfl) fun found => ?_
      cases found with
      | none => exact L.pure _
      | some c => exact L.bind (hev _ _) fun _ => L.bind (L.inquire fun _ => rfl) fun _ => ih _ _

theorem evalSequence (hev : ∀ env expr, L.Rel (ev env expr) (ev' env expr)) (env : Ref)
    (body : Value) : L.Rel (evalSequence ev env body) (evalSequence ev' env body) :=
  L.bind (L.inquire fun _ => rfl) fun _ => L.evalBody hev _ _ _ _

theorem evalOperands (hev : ∀ env expr, L.Rel (ev env expr) (ev' env expr)) (env : Ref)
    (es : List Value) :
    ∀ done, L.Rel (evalOperands ev env done es) (evalOperands ev' env done es) := by
  induction es with
  | nil => exact fun _ => L.pure _
  | cons e es ih => exact fun done => L.bind (hev _ _) fun _ => ih _

end Evaluators

end Lockstep

/-! ### Evaluations -/

/-- A relation that also holds of the actions on closures. -/
structure FullLockstep extends Lockstep where
  closure (r : Ref) : Rel (MiniScheme.inquire fun s => s.closures[r]?)
    (MiniScheme.inquire fun s => s.closures[r]?)
  newClosure (k : Closure) : Rel (MiniScheme.change fun s => s.newClosure k)
    (MiniScheme.change fun s => s.newClosure k)

namespace FullLockstep

variable (L : FullLockstep) {d d' : Nat} {ev ev' : Evaluator}

theorem apply (hev : ∀ env expr, L.Rel (ev env expr) (ev' env expr)) (hd : d ≤ d') (fn : Value)
    (args : List Value) : L.Rel (applyWith d ev fn args) (applyWith d' ev' fn args) := by
  cases fn with
  | closure r =>
      refine L.bind (L.closure r) fun found => ?_
      cases found with
      | none => exact L.failShowing hd (by simp) _
      | some k =>
          exact L.bind (L.extend hd _ _ _) fun _ =>
            L.bind (L.note (.displayEvent hd _ _)) fun _ => L.evalSequence hev _ _
  | _ => exact L.applyWith hd (by simp) args

theorem makeClosure (hd : d ≤ d') (env : Ref) (formals body : Value) :
    L.Rel (makeClosure d env formals body) (makeClosure d' env formals body) :=
  L.bind (L.newClosure _) fun _ => L.bind (L.note (.displayEvent hd formals _)) fun _ => L.pure _

theorem evalForm (hev : ∀ env expr, L.Rel (ev env expr) (ev' env expr)) (hd : d ≤ d') (env : Ref)
    (form : Form) (tail : Value) :
    L.Rel (evalForm d ev env form tail) (evalForm d' ev' env form tail) := by
  refine L.bind (L.formOperands _ _) fun operands => ?_
  cases form with
  | quote =>
      dsimp only
      split
      · exact L.pure _
      · exact L.throw (by simp)
  | conditional =>
      dsimp only
      split
      · refine L.bind (hev _ _) fun v => ?_
        split
        · exact hev _ _
        · exact L.pure _
      · refine L.bind (hev _ _) fun v => ?_
        split
        · exact hev _ _
        · exact hev _ _
      · exact L.throw (by simp)
  | begin => exact L.evalSequence hev _ _
  | assignment =>
      dsimp only
      split
      · exact L.bind (hev _ _) fun _ => L.assign _ _ _
      · exact L.failShowing hd (by simp) _
      · exact L.throw (by simp)
  | lambda =>
      refine L.bind (L.inquire fun _ => rfl) fun found => ?_
      cases found with
      | none => exact L.throw (by simp)
      | some c => exact L.makeClosure hd _ _ _

theorem evalCall (hev : ∀ env expr, L.Rel (ev env expr) (ev' env expr)) (hd : d ≤ d') (env : Ref)
    (expr head tail : Value) :
    L.Rel (evalCall d ev env expr head tail) (evalCall d' ev' env expr head tail) := by
  refine L.bind (hev _ _) fun fn => L.bind (L.spine _) fun found => ?_
  dsimp only
  split
  · exact L.failShowing hd (by simp) _
  · exact L.bind (L.evalOperands hev _ _ _) fun _ => L.apply hev hd _ _

theorem evaluateWith (hev : ∀ env expr, L.Rel (ev env expr) (ev' env expr)) (hd : d ≤ d')
    (env : Ref) (expr : Value) :
    L.Rel (evaluateWith d ev env expr) (evaluateWith d' ev' env expr) := by
  unfold MiniScheme.evaluateWith
  cases expr with
  | symbol name => exact L.lookup _ _
  | number | text | boolean | vector => exact L.pure _
  | pair r =>
      refine L.bind (L.inquire fun _ => rfl) fun found => ?_
      cases found with
      | none => exact L.refuse hd _
      | some c =>
          dsimp only
          split
          · exact L.evalForm hev hd _ _ _
          · exact L.evalCall hev hd _ _ _ _
  | _ => exact L.refuse hd _

/-- Evaluations run side by side, the second one with `more` levels of
nesting more, if the relation holds where the first one has none left. -/
theorem evaluate {more : Nat}
    (hnone : ∀ env expr, L.Rel (throw .tooDeep) (MiniScheme.evaluate more env expr)) (depth : Nat) :
    ∀ env expr, L.Rel (MiniScheme.evaluate depth env expr)
      (MiniScheme.evaluate (depth + more) env expr) := by
  induction depth with
  | zero =>
      intro env expr
      rw [Nat.zero_add]
      exact hnone env expr
  | succ depth ih =>
      intro env expr
      rw [Nat.add_right_comm]
      exact L.evaluateWith ih (Nat.le_add_right depth more) env expr

end FullLockstep

/-- Evaluations have a property that all actions have, those on closures
included. -/
theorem Trait.evaluate (T : Trait)
    (hclosure : ∀ r : Ref, T.Holds (MiniScheme.inquire fun s => s.closures[r]?))
    (hnewClosure : ∀ k, T.Holds (MiniScheme.change fun s => s.newClosure k))
    (depth : Nat) (env : Ref) (expr : Value) : T.Holds (MiniScheme.evaluate depth env expr) := by
  let L : FullLockstep :=
    { T.lockstep with
      closure := fun r => ⟨hclosure r, hclosure r⟩
      newClosure := fun k => ⟨hnewClosure k, hnewClosure k⟩ }
  have hnone (env : Ref) (expr : Value) :
      L.Rel (MiniScheme.evaluate 0 env expr) (MiniScheme.evaluate 0 env expr) :=
    L.throw (by simp)
  exact (L.evaluate hnone depth env expr).1

end MiniScheme
