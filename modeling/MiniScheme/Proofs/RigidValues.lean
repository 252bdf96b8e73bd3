import Mathlib.Data.Nat.SuccPred
import Mathlib.Data.Set.Finite.Basic
import Mathlib.Order.Preorder.Finite
import Mathlib.Order.SuccPred.Relation
import Mathlib.Order.WellFounded
import MiniScheme.Proofs.CodeSeparation

/-!
# `MiniScheme.Proofs.RigidValues`: what no program can change

Programs can make lists circular, but only out of pairs that they get hold
of. They get hold of no element of a vector, since vectors come from source
text only and no operation takes one apart, and of no part of the parameters
of a closure, since these are code.

`Store.Rigid` values are built in finitely many steps from atoms, frozen pairs
and vectors. In a `RigidWorld` all vectors and all parameters are rigid; the
frozen pairs are those that are never evaluated and never data, so they have
the role of inert code. The pairs inside of vectors get this role when they
are loaded.

Links lead from a rigid value to rigid values only, and finitely often. So no
cycle passes through a vector (`Store.Rigid.irrefl`), and parameters lead to
no closure (`Store.Rigid.not_closure`).
-/

set_option autoImplicit false

namespace MiniScheme

namespace Store

/-! ### Links -/

/-- The second value is a field or an element of the first. -/
inductive Link (s : Store) : Value → Value → Prop
  | car {r : Ref} {c : Cell} (cell : s.cells[r]? = some c) : Link s (.pair r) c.car
  | cdr {r : Ref} {c : Cell} (cell : s.cells[r]? = some c) : Link s (.pair r) c.cdr
  | element {r : Ref} {items : List Value} {v : Value} (vector : s.vectors[r]? = some items)
      (mem : v ∈ items) : Link s (.vector r) v

/-- The elements of a vector. -/
def elements (s : Store) (r : Ref) : List Value := s.vectors[r]?.getD []

/-- A vector has links to its elements. -/
theorem link_of_mem_elements {s : Store} {r : Ref} {v : Value} (h : v ∈ s.elements r) :
    s.Link (.vector r) v := by
  cases hitems : s.vectors[r]? with
  | none => simp [elements, hitems] at h
  | some items => exact .element hitems (by simpa [elements, hitems] using h)

/-- Only pairs and vectors of the store have links. -/
theorem finite_linked (s : Store) : {v | ∃ w, s.Link v w}.Finite := by
  refine Set.Finite.subset (((Set.finite_lt_nat s.cells.size).image Value.pair).union
    ((Set.finite_lt_nat s.vectors.size).image Value.vector)) ?_
  rintro v ⟨w, hlink⟩
  cases hlink with
  | car cell => exact .inl ⟨_, (Array.getElem?_eq_some_iff.mp cell).1, rfl⟩
  | cdr cell => exact .inl ⟨_, (Array.getElem?_eq_some_iff.mp cell).1, rfl⟩
  | element vector _ => exact .inr ⟨_, (Array.getElem?_eq_some_iff.mp vector).1, rfl⟩

/-- If there is no cycle among the links that can be reached from a value, then
these links lead away from it only finitely often. -/
theorem acc_of_acyclic {s : Store} {link : Value → Value → Prop}
    (hsub : ∀ v w, link v w → s.Link v w) {v : Value}
    (h : ∀ u, Relation.ReflTransGen link v u → ¬ Relation.TransGen link u u) :
    Acc (fun v' v => link v v') v := by
  by_contra hacc
  obtain ⟨f, rfl, hf⟩ := not_acc_iff_exists_descending_chain.mp hacc
  have hpath : ∀ {i j : ℕ}, i < j → Relation.TransGen link (f i) (f j) := fun hij =>
    Relation.TransGen.lift f (fun _ _ h => h) _ _
      (transGen_of_succ_of_lt (fun i j => link (f i) (f j)) (fun i _ => hf i) hij)
  -- The chain meets one of the finitely many values with links twice.
  have hlinked : ∀ i, f i ∈ {v | ∃ w, s.Link v w} := fun i => ⟨f (i + 1), hsub _ _ (hf i)⟩
  obtain ⟨i, j, hij, heq⟩ := Set.Finite.exists_lt_map_eq_of_forall_mem hlinked s.finite_linked
  have hreach : Relation.ReflTransGen link (f 0) (f i) := by
    rcases Nat.eq_zero_or_pos i with rfl | hi
    · exact .refl
    · exact (hpath hi).to_reflTransGen
  have hcycle := hpath hij
  rw [← heq] at hcycle
  exact h (f i) hreach hcycle

/-- Where links lead away only finitely often, there is no cycle. -/
theorem irrefl_of_acc {s : Store} {v : Value} (h : Acc (fun v' v => s.Link v v') v) :
    ¬ Relation.TransGen s.Link v v := by
  induction h with
  | intro v _ ih =>
      -- A cycle can be entered one link further on.
      intro hcycle
      obtain ⟨v', hfirst, hrest⟩ := Relation.TransGen.head'_iff.mp hcycle
      exact ih v' hfirst (.tail' hrest hfirst)

/-- A value that is built in finitely many steps from atoms, frozen pairs and
vectors. -/
inductive Rigid (s : Store) (frozen : Ref → Prop) : Value → Prop
  | atom {v : Value} (simple : v.IsAtom) : Rigid s frozen v
  | pair {r : Ref} {c : Cell} (ice : frozen r) (cell : s.cells[r]? = some c)
      (car : Rigid s frozen c.car) (cdr : Rigid s frozen c.cdr) : Rigid s frozen (.pair r)
  | vector {r : Ref} {items : List Value} (elements : s.vectors[r]? = some items)
      (each : ∀ v ∈ items, Rigid s frozen v) : Rigid s frozen (.vector r)

namespace Rigid

variable {s t : Store} {frozen frozen' : Ref → Prop} {v v' : Value}

/-- A rigid value stays rigid while frozen pairs and vectors stay. -/
theorem mono (hcells : ∀ (r : Ref) (c : Cell), frozen r → s.cells[r]? = some c →
      frozen' r ∧ t.cells[r]? = some c)
    (hvectors : ∀ (r : Ref) (items : List Value), s.vectors[r]? = some items →
      t.vectors[r]? = some items)
    (h : s.Rigid frozen v) : t.Rigid frozen' v := by
  induction h with
  | atom simple => exact .atom simple
  | pair ice cell _ _ ihcar ihcdr =>
      obtain ⟨ice', cell'⟩ := hcells _ _ ice cell
      exact .pair ice' cell' ihcar ihcdr
  | vector elements _ ih => exact .vector (hvectors _ _ elements) ih

theorem fields {r : Ref} {c : Cell} (h : s.Rigid frozen (.pair r))
    (hcell : s.cells[r]? = some c) : s.Rigid frozen c.car ∧ s.Rigid frozen c.cdr := by
  cases h with
  | atom simple => exact simple.elim
  | pair _ cell car cdr =>
      obtain rfl := Option.some.inj (cell.symm.trans hcell)
      exact ⟨car, cdr⟩

theorem elements {r : Ref} {items : List Value} (h : s.Rigid frozen (.vector r))
    (hitems : s.vectors[r]? = some items) : ∀ v ∈ items, s.Rigid frozen v := by
  cases h with
  | atom simple => exact simple.elim
  | vector elements each =>
      obtain rfl := Option.some.inj (elements.symm.trans hitems)
      exact each

/-- A link from a rigid value leads to a rigid value. -/
theorem link (h : s.Rigid frozen v) (hlink : s.Link v v') : s.Rigid frozen v' := by
  cases hlink with
  | car cell => exact (h.fields cell).1
  | cdr cell => exact (h.fields cell).2
  | element vector mem => exact h.elements vector _ mem

/-- Links lead away from a rigid value only finitely often. -/
theorem acc (h : s.Rigid frozen v) : Acc (fun v' v => s.Link v v') v := by
  induction h with
  | atom simple =>
      refine .intro _ fun v' hlink => ?_
      cases hlink with
      | car | cdr | element => exact simple.elim
  | pair _ cell _ _ ihcar ihcdr =>
      refine .intro _ fun v' hlink => ?_
      cases hlink with
      | car cell' =>
          obtain rfl := Option.some.inj (cell.symm.trans cell')
          exact ihcar
      | cdr cell' =>
          obtain rfl := Option.some.inj (cell.symm.trans cell')
          exact ihcdr
  | vector elements _ ih =>
      refine .intro _ fun v' hlink => ?_
      cases hlink with
      | element vector mem =>
          obtain rfl := Option.some.inj (elements.symm.trans vector)
          exact ih _ mem

/-- No cycle of links passes through a rigid value. -/
theorem irrefl (h : s.Rigid frozen v) : ¬ Relation.TransGen s.Link v v := irrefl_of_acc h.acc

/-- No closure can be reached from a rigid value. -/
theorem not_closure (h : s.Rigid frozen v) {q : Ref} :
    ¬ Relation.ReflTransGen s.Link v (.closure q) := by
  intro hreach
  have hend : s.Rigid frozen (.closure q) := by
    generalize Value.closure q = u at hreach
    induction hreach with
    | refl => exact h
    | tail _ hlink ih => exact ih.link hlink
  cases hend with
  | atom simple => exact simple

end Rigid

end Store

/-! ### Worlds -/

/-- The value is built from inert pairs and vectors. -/
abbrev CodeWorld.Rigid (w : CodeWorld) (v : Value) : Prop :=
  w.store.Rigid (fun r => w.roles r = .inert) v

/-- A store with consistent roles, where all inert code, all vectors and the
parameters of all closures are rigid. -/
structure RigidWorld where
  code : CodeWorld
  parts : ∀ (r : Ref) (c : Cell), code.store.cells[r]? = some c →
    ((code.roles r).onCar c = .inert → code.Rigid c.car) ∧
      ((code.roles r).onCdr c = .inert → code.Rigid c.cdr)
  vectors : ∀ r < code.store.vectors.size, code.Rigid (.vector r)
  formals : ∀ (r : Ref) (k : Closure), code.store.closures[r]? = some k → code.Rigid k.formals

namespace RigidWorld

instance : Preorder RigidWorld where
  le w w' := w.code ≤ w'.code ∧ ∀ (r : Ref) (items : List Value),
    w.code.store.vectors[r]? = some items → w'.code.store.vectors[r]? = some items
  le_refl w := ⟨le_refl w.code, fun _ _ h => h⟩
  le_trans _ _ _ h k := ⟨h.1.trans k.1, fun r items hr => k.2 r items (h.2 r items hr)⟩

/-- Inert pairs are code, and code stays as it is. -/
theorem rigid_mono {w w' : CodeWorld} (hle : w ≤ w')
    (hvectors : ∀ (r : Ref) (items : List Value), w.store.vectors[r]? = some items →
      w'.store.vectors[r]? = some items) {v : Value} (h : w.Rigid v) : w'.Rigid v := by
  refine h.mono (fun r c hinert hc => ?_) hvectors
  have hlt : r < w.store.cells.size := (Array.getElem?_eq_some_iff.mp hc).1
  have hcode : w.roles r ≠ .datum := by
    rw [hinert]
    decide
  exact ⟨(hle.roles r hlt).trans hinert, (hle.code r hlt hcode).trans hc⟩

/-- A world follows if new pairs, vectors and closures have rigid parts where
they need them. -/
theorem next (w : RigidWorld) {code : CodeWorld} (hle : w.code ≤ code)
    (hkept : ∀ (r : Ref) (items : List Value), w.code.store.vectors[r]? = some items →
      code.store.vectors[r]? = some items)
    (hcells : ∀ (r : Ref) (c : Cell), w.code.store.cells.size ≤ r →
      code.store.cells[r]? = some c →
      ((code.roles r).onCar c = .inert → w.code.Rigid c.car) ∧
        ((code.roles r).onCdr c = .inert → w.code.Rigid c.cdr))
    (hvectors : ∀ r, w.code.store.vectors.size ≤ r → r < code.store.vectors.size →
      code.Rigid (.vector r))
    (hclosures : ∀ (r : Ref) (k : Closure), code.store.closures[r]? = some k →
      w.code.store.closures[r]? = some k ∨ w.code.Rigid k.formals) :
    ∃ w', w ≤ w' ∧ w'.code = code := by
  have hrigid {v : Value} (h : w.code.Rigid v) : code.Rigid v := rigid_mono hle hkept h
  refine ⟨⟨code, fun r c hc => ?_, fun r hr => ?_, fun r k hk => ?_⟩, ⟨hle, hkept⟩, rfl⟩
  · by_cases hr : r < w.code.store.cells.size
    · by_cases hdatum : code.roles r = .datum
      · -- The parts of data are data.
        rw [hdatum]
        exact ⟨Role.noConfusion, Role.noConfusion⟩
      · have hrole := hle.roles r hr
        rw [hrole] at hdatum
        obtain ⟨hcar, hcdr⟩ := w.parts r c ((hle.code r hr hdatum).symm.trans hc)
        rw [hrole]
        exact ⟨fun h => hrigid (hcar h), fun h => hrigid (hcdr h)⟩
    · obtain ⟨hcar, hcdr⟩ := hcells r c (Nat.not_lt.mp hr) hc
      exact ⟨fun h => hrigid (hcar h), fun h => hrigid (hcdr h)⟩
  · by_cases hold : r < w.code.store.vectors.size
    · exact hrigid (w.vectors r hold)
    · exact hvectors r (Nat.not_lt.mp hold) hr
  · rcases hclosures r k hk with hold | hformals
    · exact hrigid (w.formals r k hold)
    · exact hrigid hformals

/-- A world follows if neither pairs nor vectors are made. -/
theorem next_of_size_eq (w : RigidWorld) {code : CodeWorld} (hle : w.code ≤ code)
    (hsize : code.store.cells.size = w.code.store.cells.size)
    (hvectors : code.store.vectors = w.code.store.vectors)
    (hclosures : ∀ (r : Ref) (k : Closure), code.store.closures[r]? = some k →
      w.code.store.closures[r]? = some k ∨ w.code.Rigid k.formals) :
    ∃ w', w ≤ w' ∧ w'.code = code := by
  refine w.next hle (fun r items h => hvectors ▸ h) (fun r c hlow hc => ?_)
    (fun r hlow hhigh => ?_) hclosures
  · have hlt := (Array.getElem?_eq_some_iff.mp hc).1
    omega
  · rw [hvectors] at hhigh
    omega

/-- A world follows if closures are not made, either. -/
theorem next_of_kept (w : RigidWorld) {code : CodeWorld} (hle : w.code ≤ code)
    (hsize : code.store.cells.size = w.code.store.cells.size)
    (hvectors : code.store.vectors = w.code.store.vectors)
    (hclosures : code.store.closures = w.code.store.closures) :
    ∃ w', w ≤ w' ∧ w'.code = code :=
  w.next_of_size_eq hle hsize hvectors fun _ _ hk => .inl (hclosures ▸ hk)

/-- A new pair may have any role that its fields go with. -/
theorem cons (w : RigidWorld) (role : Role) {a d : Value}
    (ha : w.code.Plays (role.onCar ⟨a, d⟩) a) (hd : w.code.Plays (role.onCdr ⟨a, d⟩) d)
    (hcar : role.onCar ⟨a, d⟩ = .inert → w.code.Rigid a)
    (hcdr : role.onCdr ⟨a, d⟩ = .inert → w.code.Rigid d) :
    ∃ w', w ≤ w' ∧ w'.code.store = (w.code.store.cons a d).2 ∧
      w'.code.Plays role (w.code.store.cons a d).1 := by
  obtain ⟨code, hle, hstore, hrole⟩ := w.code.cons role ha hd
  obtain ⟨w', hle', rfl⟩ := w.next hle (fun r items h => by rw [hstore]; exact h)
    (fun r c hlow hc => by
      have hpush : (w.code.store.cells.push ⟨a, d⟩)[r]? = some c := by
        rw [hstore] at hc
        exact hc
      rw [Array.getElem?_push] at hpush
      split at hpush
      · rename_i hr
        cases hpush
        rw [hr, hrole]
        exact ⟨hcar, hcdr⟩
      · exact absurd (Array.getElem?_eq_some_iff.mp hpush).1 (Nat.not_lt.mpr hlow))
    (fun r hlow hhigh => by
      rw [hstore] at hhigh
      exact absurd hhigh (Nat.not_lt.mpr hlow))
    fun r k hk => .inl (by rw [hstore] at hk; exact hk)
  exact ⟨w', hle', hstore, CodeWorld.plays_of_cons hstore hrole⟩

/-- A new vector has rigid elements. -/
theorem newVector (w : RigidWorld) {items : List Value} (hitems : ∀ v ∈ items, w.code.Rigid v) :
    ∃ w', w ≤ w' ∧ w'.code.store = (w.code.store.newVector items).2 := by
  obtain ⟨code, hle, hstore, -⟩ :=
    w.code.of_eq (t := (w.code.store.newVector items).2) rfl rfl w.code.frames
  have hkept : ∀ (r : Ref) (vs : List Value), w.code.store.vectors[r]? = some vs →
      code.store.vectors[r]? = some vs := fun r vs h => by
    rw [hstore]
    exact Store.getElem?_push_of_some _ h
  have hnew : code.store.vectors[w.code.store.vectors.size]? = some items := by
    rw [hstore]
    exact Array.getElem?_push_size
  obtain ⟨w', hle', rfl⟩ := w.next hle hkept
    (fun r c hlow hc => by
      rw [hstore] at hc
      exact absurd (Array.getElem?_eq_some_iff.mp hc).1 (Nat.not_lt.mpr hlow))
    (fun r hlow hhigh => by
      have hsize : code.store.vectors.size = w.code.store.vectors.size + 1 := by
        rw [hstore]
        exact Array.size_push _
      obtain rfl : r = w.code.store.vectors.size := by omega
      exact .vector hnew fun v hv => rigid_mono hle hkept (hitems v hv))
    fun r k hk => .inl (by rw [hstore] at hk; exact hk)
  exact ⟨w', hle', hstore⟩

/-! ### The discipline -/

/-- Values have the roles they stand in, and inert ones are rigid. -/
def demand : Demand RigidWorld where
  store w := w.code.store
  Holds w role v := w.code.Plays role v ∧ (role = .inert → w.code.Rigid v)
  Visible _ _ := True
  Body w v := codeDemand.Body w.code v
  Reads _ _ := True
  holds_mono hle h := ⟨h.1.grown hle.1, fun hrole => rigid_mono hle.1 hle.2 (h.2 hrole)⟩
  visible_mono _ _ := trivial
  body_mono hle h := codeDemand.body_mono hle.1 h

/-- The parts of a pair are rigid where they are inert. -/
theorem holds_parts {w : RigidWorld} {role : Role} {r : Ref} {c : Cell}
    (hc : w.code.store.cells[r]? = some c) (h : w.code.Plays role (.pair r)) :
    demand.Holds w (role.onCar c) c.car ∧ demand.Holds w (role.onCdr c) c.cdr := by
  obtain ⟨-, rfl⟩ := h r rfl
  obtain ⟨hcar, hcdr⟩ := w.code.cells r c hc
  obtain ⟨hcar', hcdr'⟩ := w.parts r c hc
  exact ⟨⟨hcar, hcar'⟩, ⟨hcdr, hcdr'⟩⟩

theorem holds_of_isAtom (w : RigidWorld) (role : Role) {v : Value} (hv : v.IsAtom) :
    demand.Holds w role v :=
  ⟨CodeWorld.discipline.atom hv, fun _ => .atom hv⟩

/-- Rigid values are loaded one after the other. -/
theorem loadItems_of_forall {ds : List Datum}
    (h : ∀ d ∈ ds, ∀ w : RigidWorld, ∃ w', w ≤ w' ∧ w'.code.store = (w.code.store.load d).2 ∧
      demand.Holds w' .inert (w.code.store.load d).1) :
    ∀ w : RigidWorld, ∃ w', w ≤ w' ∧ w'.code.store = (Store.loadItems [] ds w.code.store).2 ∧
      ∀ v ∈ (Store.loadItems [] ds w.code.store).1, w'.code.Rigid v := by
  induction ds with
  | nil =>
      intro w
      exact ⟨w, le_refl w, rfl, fun v hv => absurd hv List.not_mem_nil⟩
  | cons d ds ih =>
      intro w
      obtain ⟨w₁, hle₁, hstore₁, hfirst⟩ := h d List.mem_cons_self w
      obtain ⟨w₂, hle₂, hstore₂, hrest⟩ := ih (fun e he => h e (List.mem_cons_of_mem d he)) w₁
      rw [hstore₁] at hstore₂ hrest
      rw [Store.loadItems_cons]
      refine ⟨w₂, hle₁.trans hle₂, hstore₂, fun v hv => ?_⟩
      rcases List.mem_cons.mp hv with rfl | hv
      · exact rigid_mono hle₂.1 hle₂.2 (hfirst.2 rfl)
      · exact hrest v hv

/-- A loaded value may have any role. -/
theorem load (d : Datum) : ∀ (w : RigidWorld) (role : Role), ∃ w', w ≤ w' ∧
    w'.code.store = (w.code.store.load d).2 ∧ demand.Holds w' role (w.code.store.load d).1 := by
  induction d using Datum.treeInduction with
  | number | symbol | boolean | nil =>
      intro w role
      exact ⟨w, le_refl w, rfl, holds_of_isAtom w role trivial⟩
  | text t =>
      intro w role
      obtain ⟨code, hle, hstore, -⟩ :=
        w.code.of_eq (t := (w.code.store.newString t).2) rfl rfl w.code.frames
      obtain ⟨w', hle', rfl⟩ := w.next_of_kept hle (by rw [hstore]; rfl) (by rw [hstore]; rfl)
        (by rw [hstore]; rfl)
      exact ⟨w', hle', hstore, holds_of_isAtom w' role trivial⟩
  | pair car cdr ihcar ihcdr =>
      intro w role
      rw [Store.load_pair]
      obtain ⟨w₁, hle₁, hstore₁, hcar⟩ := ihcar w
        (role.onCar ⟨(w.code.store.load car).1, ((w.code.store.load car).2.load cdr).1⟩)
      obtain ⟨w₂, hle₂, hstore₂, hcdr⟩ := ihcdr w₁
        (role.onCdr ⟨(w.code.store.load car).1, ((w.code.store.load car).2.load cdr).1⟩)
      rw [hstore₁] at hstore₂ hcdr
      replace hcar := demand.holds_mono hle₂ hcar
      obtain ⟨w₃, hle₃, hstore₃, hpair⟩ := w₂.cons role hcar.1 hcdr.1 hcar.2 hcdr.2
      rw [← hstore₂]
      refine ⟨w₃, (hle₁.trans hle₂).trans hle₃, hstore₃, hpair, fun hrole => ?_⟩
      -- Both fields of an inert pair are inert, so they are rigid.
      subst hrole
      replace hcar := demand.holds_mono hle₃ hcar
      replace hcdr := demand.holds_mono hle₃ hcdr
      have hcell : w₃.code.store.cells[w₂.code.store.cells.size]?
          = some ⟨(w.code.store.load car).1, ((w.code.store.load car).2.load cdr).1⟩ := by
        rw [hstore₃]
        exact Array.getElem?_push_size
      exact .pair (hpair _ rfl).2 hcell (hcar.2 rfl) (hcdr.2 rfl)
  | vector items ih =>
      intro w role
      rw [Store.load_vector]
      -- The pairs in a vector are made to stay: no program gets hold of them.
      obtain ⟨w₁, hle₁, hstore₁, hitems⟩ :=
        loadItems_of_forall (fun d hd w => ih d hd w .inert) w
      obtain ⟨w₂, hle₂, hstore₂⟩ := w₁.newVector hitems
      rw [hstore₁] at hstore₂
      refine ⟨w₂, hle₁.trans hle₂, hstore₂, Store.plays_of_ne_pair (by rintro r ⟨⟩), fun _ => ?_⟩
      refine w₂.vectors _ ?_
      rw [hstore₂]
      simp [Store.newVector]

/-- No operation takes a vector apart, and none changes inert code. -/
def discipline : Discipline RigidWorld where
  toDemand := demand
  atom {w role v} h := holds_of_isAtom w role h
  constant h hv := ⟨CodeWorld.discipline.constant h hv.1, Role.noConfusion⟩
  car hc h := (holds_parts hc h.1).1
  cdr hc h := (holds_parts hc h.1).2
  body hspine h := CodeWorld.discipline.body hspine h.1
  operands h := ⟨CodeWorld.discipline.operands h, Role.noConfusion⟩
  closure hk h := CodeWorld.discipline.closure hk h.1
  lookup h _ := ⟨CodeWorld.discipline.lookup h trivial, Role.noConfusion⟩
  assign {w env r name v} hlocate _ hv := by
    obtain ⟨code, hnext, hstore⟩ := CodeWorld.discipline.assign hlocate trivial hv.1
    replace hstore : code.store = _ := hstore
    obtain ⟨w', hle, rfl⟩ := w.next_of_kept hnext.1 (by rw [hstore]; rfl) (by rw [hstore]; rfl)
      (by rw [hstore]; rfl)
    exact ⟨w', ⟨hle, fun _ _ => trivial⟩, hstore⟩
  cons {w a d} ha hd := by
    obtain ⟨w', hle, hstore, hpair⟩ := w.cons .datum ha.1 hd.1 Role.noConfusion Role.noConfusion
    exact ⟨w', ⟨hle, fun _ _ => trivial⟩, hstore, hpair, Role.noConfusion⟩
  setCar {w r v} hr hv := by
    obtain ⟨code, hnext, hstore⟩ := CodeWorld.discipline.setCar hr.1 hv.1
    replace hstore : code.store = _ := hstore
    obtain ⟨w', hle, rfl⟩ := w.next_of_kept hnext.1 (by rw [hstore]; exact Array.size_modify)
      (by rw [hstore]; rfl) (by rw [hstore]; rfl)
    exact ⟨w', ⟨hle, fun _ _ => trivial⟩, hstore⟩
  setCdr {w r v} hr hv := by
    obtain ⟨code, hnext, hstore⟩ := CodeWorld.discipline.setCdr hr.1 hv.1
    replace hstore : code.store = _ := hstore
    obtain ⟨w', hle, rfl⟩ := w.next_of_kept hnext.1 (by rw [hstore]; exact Array.size_modify)
      (by rw [hstore]; rfl) (by rw [hstore]; rfl)
    exact ⟨w', ⟨hle, fun _ _ => trivial⟩, hstore⟩
  newClosure {w k} hformals hbody _ := by
    obtain ⟨code, hnext, hstore, hclosure⟩ :=
      CodeWorld.discipline.newClosure hformals.1 hbody trivial
    replace hstore : code.store = _ := hstore
    obtain ⟨w', hle, rfl⟩ := w.next_of_size_eq hnext.1 (by rw [hstore]; rfl) (by rw [hstore]; rfl)
      fun r k' hk' => by
        have hpush : (w.code.store.closures.push k)[r]? = some k' := by
          rw [hstore] at hk'
          exact hk'
        rw [Array.getElem?_push] at hpush
        split at hpush
        · cases hpush
          exact .inr (hformals.2 rfl)
        · exact .inl hpush
    exact ⟨w', ⟨hle, fun _ _ => trivial⟩, hstore, hclosure, Role.noConfusion⟩
  newFrame {w bindings outer} hbindings _ := by
    have houter : CodeWorld.discipline.Visible w.code outer := trivial
    obtain ⟨code, hnext, hstore, -⟩ := CodeWorld.discipline.newFrame
      (fun b hb => (hbindings b hb).1) houter
    replace hstore : code.store = _ := hstore
    obtain ⟨w', hle, rfl⟩ := w.next_of_kept hnext.1 (by rw [hstore]; rfl) (by rw [hstore]; rfl)
      (by rw [hstore]; rfl)
    exact ⟨w', ⟨hle, fun _ _ => trivial⟩, hstore, trivial⟩
  load {w es d} _ _ := by
    obtain ⟨w', hle, hstore, hholds⟩ := RigidWorld.load d w .expression
    exact ⟨w', hle, hstore, hholds, trivial⟩

/-- At the start there are no pairs, no vectors and no closures. -/
theorem exists_obeys_global (primitives : List Primitive) (placeholders : List String)
    (journal : Option (List Event)) :
    ∃ w, discipline.Obeys w (Configuration.global primitives placeholders journal) ∧
      w.code.store.vectors = #[] := by
  obtain ⟨code, hcode⟩ := Configuration.exists_obeys_global primitives placeholders journal
  obtain ⟨m, hrun, hadded⟩ := makeGlobal_run primitives placeholders ⟨{}, journal⟩
  have hglobal : Configuration.global primitives placeholders journal = .rest m [] := by
    rw [Configuration.global, hrun]
    rfl
  rw [hglobal] at hcode ⊢
  have hstore : code.store = m.store := hcode.store
  have hcells : code.store.cells = #[] := hstore ▸ hadded.cells
  have hvectors : code.store.vectors = #[] := hstore ▸ hadded.vectors
  have hclosures : code.store.closures = #[] := hstore ▸ hadded.closures
  exact ⟨⟨code, by simp [hcells], by simp [hvectors], by simp [hclosures]⟩,
    ⟨hstore, discipline.atom trivial, fun _ ht => absurd ht List.not_mem_nil, trivial⟩, hvectors⟩

end RigidWorld

end MiniScheme
