import MiniScheme.Proofs.Analysis
import MiniScheme.Proofs.OrdinaryFaults

/-!
# `MiniScheme.Proofs.Mirrors`: machines with bodies and machines with trees

The interpreter of `MiniScheme.Proofs.SyntaxTree` works on machines whose
closures have trees for bodies. This file relates such machines to those of
the evaluator, and computations on them to computations of the evaluator.

* Machines are related by `Mirrors`: the stores are the same but for the
  bodies of closures, and these have been analysed.
* What both interpreters share looks at no body (`Blind`), so it does the
  same on both machines (`Agrees.lift`).
* `Agrees` relates computations. It carries a world (`CodeWorld`), where code
  has its role, because then the tree of an expression is the same when it is
  made and when it is run. All faults of related computations are ordinary.
-/

set_option autoImplicit false

namespace MiniScheme

/-! ### Computations that look at no body -/

/-- The machine with empty bodies for all closures. -/
def Machine.withoutBodies (m : Machine) : Machine := { m with store := m.store.withoutBodies }

theorem Machine.withoutBodies_of_closures {m : Machine} (h : m.store.closures = #[]) :
    m.withoutBodies = m := by
  obtain ⟨⟨cells, vectors, closures, frames, primitives, strings⟩, journal⟩ := m
  obtain rfl : closures = #[] := h
  simp [withoutBodies, Store.withoutBodies]

/-- The computation does the same on a machine without the bodies of
closures. -/
def Blind {α : Type} (x : Eval α) : Prop :=
  ∀ m, x m.withoutBodies = onMachine Machine.withoutBodies (x m)

namespace Blind

variable {α β : Type}

theorem bind {x : Eval α} {f : α → Eval β} (hx : Blind x) (hf : ∀ a, Blind (f a)) :
    Blind (x >>= f) := by
  intro m
  rw [bind_run, bind_run, hx m]
  cases x m with
  | ok a k => exact hf a k
  | error e k => rfl

theorem examine {f : Store → Except Fault α} (hf : Query f f) : Blind (examine f) := by
  intro m
  unfold MiniScheme.examine
  rw [show f m.withoutBodies.store = f m.store from (hf.blind m.store).1]
  cases f m.store <;> rfl

theorem note {f : Store → Except Fault Event} (hf : Query f f) : Blind (note f) := by
  intro m
  unfold MiniScheme.note
  rw [show f m.withoutBodies.store = f m.store from (hf.blind m.store).1,
    show m.withoutBodies.journal = m.journal from rfl]
  cases m.journal with
  | none => rfl
  | some events =>
      cases f m.store with
      | ok e => rfl
      | error e => cases e <;> rfl

theorem change {f : Store → α × Store}
    (hf : ∀ s, f s.withoutBodies = ((f s).1, (f s).2.withoutBodies)) : Blind (change f) := by
  intro m
  show EStateM.Result.ok (f m.store.withoutBodies).1
    (Machine.mk (f m.store.withoutBodies).2 m.journal) = _
  rw [hf]
  rfl

/-- No action but those on closures looks at bodies. -/
def actions : Trait where
  Holds := Blind
  pure _ _ := rfl
  bind := .bind
  throw _ _ := rfl
  inquire {_ f} hf m := by
    show EStateM.Result.ok (f m.store.withoutBodies) m.withoutBodies = _
    rw [hf]
    rfl
  change := .change
  examine := .examine
  note := .note

/-- The relation between two computations that both look at no body. -/
abbrev both : Lockstep := actions.lockstep

end Blind

namespace Store

theorem loadItems_withoutBodies {ds : List Datum}
    (h : ∀ d ∈ ds, ∀ s : Store,
      s.withoutBodies.load d = ((s.load d).1, (s.load d).2.withoutBodies)) :
    ∀ s : Store, loadItems [] ds s.withoutBodies
      = ((loadItems [] ds s).1, (loadItems [] ds s).2.withoutBodies) := by
  induction ds with
  | nil => intro s; rfl
  | cons d ds ih =>
      intro s
      rw [loadItems_cons, loadItems_cons, h d List.mem_cons_self,
        ih fun e he => h e (List.mem_cons_of_mem d he)]

/-- Loading a datum looks at no closure. -/
theorem load_withoutBodies (d : Datum) : ∀ s : Store,
    s.withoutBodies.load d = ((s.load d).1, (s.load d).2.withoutBodies) := by
  induction d using Datum.treeInduction with
  | number | text | symbol | boolean | nil => intro s; rfl
  | pair car cdr ihcar ihcdr =>
      intro s
      rw [load_pair, load_pair, ihcar, ihcdr]
      rfl
  | vector items ih =>
      intro s
      rw [load_vector, load_vector, loadItems_withoutBodies ih]
      rfl

/-- A new closure, with and without its body. -/
theorem newClosure_withoutBodies (s : Store) (formals body : Value) (env : Ref) :
    s.withoutBodies.newClosure ⟨formals, .nil, env⟩
      = ((s.newClosure ⟨formals, body, env⟩).1,
          (s.newClosure ⟨formals, body, env⟩).2.withoutBodies) := by
  simp [newClosure, withoutBodies]

theorem write_withoutBodies (s : Store) (depth : Nat) (v : Value) :
    s.withoutBodies.write depth v = s.write depth v := by
  have halike := Alike.withoutBodies s
  exact (settles_write halike (Nat.le_refl depth) v).antisymm
    (settles_write halike.symm (Nat.le_refl depth) v)

/-- The second store has the closures and primitives of the first one. -/
structure SameProcedures (s t : Store) : Prop where
  closures : t.closures = s.closures
  primitives : t.primitives = s.primitives

namespace SameProcedures

theorem effect {s t : Store} {args : List Value} {v : Value}
    (h : Operation.Effect s args v t) : SameProcedures s t := by
  cases h <;> exact ⟨rfl, rfl⟩

theorem list (s : Store) (items : List Value) (tail : Value) :
    SameProcedures s (s.list items tail).2 := by
  have key : ∀ (items : List Value) (s : Store) (tail : Value),
      SameProcedures s (s.consAll items tail).2 := by
    intro items
    induction items with
    | nil => intro s tail; exact ⟨rfl, rfl⟩
    | cons v items ih =>
        intro s tail
        obtain ⟨hclosures, hprimitives⟩ := ih (s.cons v tail).2 (s.cons v tail).1
        exact ⟨hclosures, hprimitives⟩
  exact key _ _ _

end SameProcedures

end Store

/-! ### Machines -/

open CodeWorld (discipline)

/-- The tree machine is the machine with the trees of bodies in place of the
bodies. The world gives code its roles. -/
structure Mirrors (w : CodeWorld) (m : Machine) (t : TreeMachine) : Prop where
  store : w.store = m.store
  machine : t.machine = m.withoutBodies
  bodies : t.bodies = m.store.closures.map fun k => m.store.analyseBody k.body
  primitives : ∀ p ∈ m.store.primitives, p.IsDeclared
  reads : ∃ es, discipline.Reads w es

namespace Mirrors

variable {w w' : CodeWorld} {m m' : Machine} {t : TreeMachine}

/-- Bodies are code, so they keep their trees. -/
theorem map_bodies (h : Mirrors w m t) (hle : w ≤ w') (hstore : w'.store = m'.store) :
    t.bodies = m.store.closures.map fun k => m'.store.analyseBody k.body := by
  rw [h.bodies]
  refine Array.map_congr_left fun k hk => ?_
  obtain ⟨r, hr⟩ := Array.mem_iff_getElem?.mp hk
  rw [← h.store] at hr
  rw [← h.store, ← hstore, CodeWorld.analyseBody_kept hle (w.closures r k hr).2.1]

/-- The machines stay related while no procedure is made. -/
theorem next (h : Mirrors w m t) (hle : w ≤ w') (hstore : w'.store = m'.store)
    (hsame : m.store.SameProcedures m'.store) (hreads : ∃ es, discipline.Reads w' es) :
    Mirrors w' m' { t with machine := m'.withoutBodies } := by
  refine ⟨hstore, rfl, ?_, ?_, hreads⟩
  · rw [hsame.closures]
    exact h.map_bodies hle hstore
  · rw [hsame.primitives]
    exact h.primitives

end Mirrors

/-! ### Computations -/

/-- Two computations end alike: with the same value, of which something holds
then, or with the same fault, which is an ordinary one. Their machines are
related in a later world. -/
inductive EndAlike {α : Type} (w : CodeWorld) (P : CodeWorld → α → Prop) :
    EStateM.Result Fault Machine α → EStateM.Result Fault TreeMachine α → Prop
  | value {w' : CodeWorld} {a : α} {m : Machine} {t : TreeMachine} (later : w ≤ w')
      (mirrors : Mirrors w' m t) (holds : P w' a) : EndAlike w P (.ok a m) (.ok a t)
  | fault {w' : CodeWorld} {f : Fault} {m : Machine} {t : TreeMachine} (later : w ≤ w')
      (mirrors : Mirrors w' m t) (ordinary : f.IsOrdinary) : EndAlike w P (.error f m) (.error f t)

theorem EndAlike.earlier {α : Type} {w w' : CodeWorld} {P : CodeWorld → α → Prop}
    {x : EStateM.Result Fault Machine α} {y : EStateM.Result Fault TreeMachine α} (hle : w ≤ w')
    (h : EndAlike w' P x y) : EndAlike w P x y := by
  cases h with
  | value later mirrors holds => exact .value (hle.trans later) mirrors holds
  | fault later mirrors ordinary => exact .fault (hle.trans later) mirrors ordinary

/-- From related machines, the two computations end alike. -/
def Agrees {α : Type} (w : CodeWorld) (x : Eval α) (y : TreeEval α)
    (P : CodeWorld → α → Prop) : Prop :=
  ∀ m t, Mirrors w m t → EndAlike w P (x m) (y t)

theorem tree_bind_run {α β : Type} (y : TreeEval α) (g : α → TreeEval β) (t : TreeMachine) :
    (y >>= g) t = match y t with
      | .ok a t => g a t
      | .error e t => .error e t := by
  show EStateM.bind y g t = _
  unfold EStateM.bind
  cases y t <;> rfl

theorem tree_get_bind_run {α : Type} (g : TreeMachine → TreeEval α) (t : TreeMachine) :
    (get >>= g) t = g t t := rfl

namespace Agrees

variable {α β : Type} {w : CodeWorld} {P : CodeWorld → α → Prop} {Q : CodeWorld → β → Prop}

theorem pure {a : α} (h : P w a) : Agrees w (pure a) (pure a) P :=
  fun _ _ hm => .value (le_refl w) hm h

theorem throw {f : Fault} (h : f.IsOrdinary) : Agrees w (throw f) (throw f) P :=
  fun _ _ hm => .fault (le_refl w) hm h

theorem bind {x : Eval α} {y : TreeEval α} {f : α → Eval β} {g : α → TreeEval β}
    (hx : Agrees w x y P)
    (hf : ∀ (w' : CodeWorld) (a : α), w ≤ w' → P w' a → Agrees w' (f a) (g a) Q) :
    Agrees w (x >>= f) (y >>= g) Q := by
  intro m t hm
  have hends := hx m t hm
  rw [bind_run, tree_bind_run]
  generalize x m = first at hends
  generalize y t = second at hends
  cases hends with
  | value later mirrors holds =>
      -- The second computations start in the world that the first ones end in.
      exact (hf _ _ later holds _ _ mirrors).earlier later
  | fault later mirrors ordinary => exact .fault later mirrors ordinary

/-- A computation may be replaced by one that does the same here. -/
theorem congr {x x' : Eval α} {y : TreeEval α} (hx : ∀ m t, Mirrors w m t → x m = x' m)
    (h : Agrees w x' y P) : Agrees w x y P := by
  intro m t hm
  rw [hx m t hm]
  exact h m t hm

/-- What looks at no body does the same on both machines, and they stay
related if it makes no procedure and keeps to the roles. -/
theorem lift {x : Eval α} (hblind : Blind x)
    (hfails : ∀ m t, Mirrors w m t → FailsOrdinarily x m)
    (hnext : ∀ m t, Mirrors w m t → ∃ w', discipline.Next w w' ∧
      w'.store = (outcome (x m)).store ∧ m.store.SameProcedures (outcome (x m)).store ∧
      ∀ a k, x m = .ok a k → P w' a) :
    Agrees w x (lift x) P := by
  intro m t hm
  have hlift : MiniScheme.lift x t
      = onMachine (fun m => { t with machine := m }) (onMachine Machine.withoutBodies (x m)) := by
    rw [MiniScheme.lift, hm.machine, hblind m]
  obtain ⟨w', hnext, hstore, hsame, hholds⟩ := hnext m t hm
  obtain ⟨es, hread⟩ := hm.reads
  rw [hlift]
  cases hx : x m with
  | ok a k =>
      rw [hx] at hstore hsame
      exact .value hnext.1 (hm.next hnext.1 hstore hsame ⟨es, hnext.2 es hread⟩) (hholds a k hx)
  | error f k =>
      rw [hx] at hstore hsame
      exact .fault hnext.1 (hm.next hnext.1 hstore hsame ⟨es, hnext.2 es hread⟩)
        (hfails m t hm f k hx)

/-- The same for what changes nothing. -/
theorem lift_keeps {x : Eval α} (hblind : Blind x) (hkeeps : Keeps x)
    (hfails : ∀ m t, Mirrors w m t → FailsOrdinarily x m)
    (hholds : ∀ m a k, w.store = m.store → x m = .ok a k → P w a) :
    Agrees w x (MiniScheme.lift x) P := by
  refine lift hblind hfails fun m t hm => ⟨w, .refl w, ?_, ?_, fun a k ha => ?_⟩
  · rw [hkeeps m]
    exact hm.store
  · rw [hkeeps m]
    exact ⟨rfl, rfl⟩
  · exact hholds m a k hm.store ha

theorem failShowing {depth : Nat} {fault : String → Fault} (v : Value)
    (hfault : ∀ shown, (fault shown).IsError) :
    Agrees w (failShowing depth fault v) (MiniScheme.lift (failShowing depth fault v)) P := by
  have hblind : Blind (MiniScheme.failShowing depth fault v : Eval α) :=
    (Blind.examine (.display (Nat.le_refl depth) v)).bind fun _ _ => rfl
  exact lift_keeps hblind (.failShowing _ _ _) (fun _ _ _ => .failShowing v hfault)
    fun _ _ _ _ hok => absurd hok failShowing_ne_ok

/-- A tree that fails with a fault that it names. -/
theorem fault {f : Fault} (h : f.IsOrdinary) :
    Agrees w (MonadExcept.throw f) (MiniScheme.lift (MonadExcept.throw f)) P :=
  fun _ _ hm => .fault (le_refl w) hm h

theorem refuse {depth : Nat} {P : CodeWorld → Value → Prop} (expr : Value) :
    Agrees w (refuse depth expr) (MiniScheme.lift (refuse depth expr)) P :=
  lift_keeps (Blind.both.refuse (Nat.le_refl depth) expr).1 (.refuse _ _)
    (fun _ _ _ => .refuse expr) fun _ _ _ _ hok => absurd hok refuse_ne_ok

end Agrees

end MiniScheme
