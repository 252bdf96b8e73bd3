import MiniScheme.Proofs.Discipline
import MiniScheme.Proofs.Loading

/-!
# `MiniScheme.Proofs.CodeRoles`: every pair is code or data

Code and data are made of the same pairs, and programs can change pairs.
This file gives each pair of a store a role for good: a pair is code in one
of its roles, or a datum. The roles are consistent (`CodeWorld`): the parts
of a pair have the roles that follow from its own, and frames hold data
only.

Roles are given when a pair is made. Pairs that a program makes are data.
Pairs of a source text get the roles that an expression gives to its parts
(`CodeWorld.load`), which are data only below a quotation or in a vector.

Since a program gets hold of data only, it changes no pair that is code
(`CodeWorld.Grown`).
-/

set_option autoImplicit false

namespace MiniScheme

namespace Store

/-! ### Parts -/

/-- What can be found in a value by following pairs, with the role it has
there. -/
inductive Part (s : Store) (role : Role) (v : Value) : Role → Value → Prop
  | self : Part s role v role v
  | car {role' : Role} {r : Ref} {c : Cell} (before : Part s role v role' (.pair r))
      (cell : s.cells[r]? = some c) : Part s role v (role'.onCar c) c.car
  | cdr {role' : Role} {r : Ref} {c : Cell} (before : Part s role v role' (.pair r))
      (cell : s.cells[r]? = some c) : Part s role v (role'.onCdr c) c.cdr

/-- The pair belongs to a value of that role, and is no part of a datum. -/
def CodeCell (s : Store) (role : Role) (v : Value) (r : Ref) : Prop :=
  ∃ role', role' ≠ .datum ∧ s.Part role v role' (.pair r)

namespace Part

variable {s : Store} {role role' role'' : Role} {v v' v'' : Value}

protected theorem trans (h : s.Part role v role' v') (k : s.Part role' v' role'' v'') :
    s.Part role v role'' v'' := by
  induction k with
  | self => exact h
  | car _ cell ih => exact .car ih cell
  | cdr _ cell ih => exact .cdr ih cell

/-- Data have data for parts. -/
theorem eq_datum (h : s.Part .datum v role' v') : role' = .datum := by
  induction h with
  | self => rfl
  | car _ _ ih => rw [ih]; rfl
  | cdr _ _ ih => rw [ih]; rfl

end Part

/-! ### Roles -/

/-- A value that is a pair is there, and has this role. -/
def Plays (s : Store) (roles : Ref → Role) (role : Role) (v : Value) : Prop :=
  ∀ r, v = .pair r → r < s.cells.size ∧ roles r = role

section Plays

variable {s t : Store} {roles roles' : Ref → Role} {role : Role} {v : Value}

theorem plays_of_ne_pair (h : ∀ r, v ≠ .pair r) : s.Plays roles role v :=
  fun r hr => absurd hr (h r)

theorem Plays.mono (hsize : s.cells.size ≤ t.cells.size)
    (hroles : ∀ r < s.cells.size, roles' r = roles r) (h : s.Plays roles role v) :
    t.Plays roles' role v := by
  intro r hr
  obtain ⟨hlt, hrole⟩ := h r hr
  exact ⟨Nat.lt_of_lt_of_le hlt hsize, (hroles r hlt).trans hrole⟩

end Plays

end Store

/-- The fields of the pair refer to no pairs but those made before the
place. -/
def Cell.Before (c : Cell) (r : Ref) : Prop :=
  (∀ q, c.car = .pair q → q < r) ∧ ∀ q, c.cdr = .pair q → q < r

theorem Role.onCdr_ne_datum {role : Role} (h : role ≠ .datum) (c : Cell) :
    role.onCdr c ≠ .datum := by
  cases role with
  | expression =>
      cases hform : Form.ofHead? c.car with
      | none => simp [Role.onCdr, hform]
      | some form => cases form <;> simp [Role.onCdr, hform, Form.operandsRole]
  | datum => exact absurd rfl h
  | _ => simp [Role.onCdr]

/-- A store whose pairs have consistent roles. Pairs of code are made before
the pairs that they are parts of. Frames hold data, and the body of a closure
is a list of expressions. -/
structure CodeWorld where
  store : Store
  roles : Ref → Role
  cells : ∀ (r : Ref) (c : Cell), store.cells[r]? = some c →
    store.Plays roles ((roles r).onCar c) c.car ∧ store.Plays roles ((roles r).onCdr c) c.cdr
  descends : ∀ (r : Ref) (c : Cell), store.cells[r]? = some c → roles r ≠ .datum → c.Before r
  frames : ∀ (r : Ref) (f : Frame), store.frames[r]? = some f → ∀ b ∈ f.bindings,
    store.Plays roles .datum b.2
  closures : ∀ (r : Ref) (k : Closure), store.closures[r]? = some k →
    store.Plays roles .inert k.formals ∧ store.Plays roles .operands k.body ∧
      ∃ items, store.Spine k.body items .nil

namespace CodeWorld

/-- The value has this role. -/
abbrev Plays (w : CodeWorld) (role : Role) (v : Value) : Prop := w.store.Plays w.roles role v

/-- Pairs keep their roles, those that are code keep their fields, and
closures stay as they are. -/
structure Grown (w w' : CodeWorld) : Prop where
  size : w.store.cells.size ≤ w'.store.cells.size
  roles : ∀ r < w.store.cells.size, w'.roles r = w.roles r
  code : ∀ r < w.store.cells.size, w.roles r ≠ .datum →
    w'.store.cells[r]? = w.store.cells[r]?
  closures : ∀ (r : Ref) (k : Closure), w.store.closures[r]? = some k →
    w'.store.closures[r]? = some k

instance : Preorder CodeWorld where
  le := Grown
  le_refl _ := ⟨Nat.le_refl _, fun _ _ => rfl, fun _ _ _ => rfl, fun _ _ h => h⟩
  le_trans w w₁ w₂ h k := by
    refine ⟨Nat.le_trans h.size k.size, fun r hr => ?_, fun r hr hcode => ?_,
      fun r q hq => k.closures r q (h.closures r q hq)⟩
    · rw [k.roles r (Nat.lt_of_lt_of_le hr h.size), h.roles r hr]
    · have hcode₁ : w₁.roles r ≠ .datum := by rwa [h.roles r hr]
      rw [k.code r (Nat.lt_of_lt_of_le hr h.size) hcode₁, h.code r hr hcode]

variable {w w' : CodeWorld} {role role' : Role} {v v' : Value}

theorem Plays.grown (hle : w ≤ w') (h : w.Plays role v) : w'.Plays role v :=
  h.mono hle.size hle.roles

/-- The parts of a value have the roles that follow from its own. -/
theorem plays_of_part (h : w.Plays role v) (hpart : w.store.Part role v role' v') :
    w.Plays role' v' := by
  induction hpart with
  | self => exact h
  | car _ cell ih =>
      obtain ⟨-, rfl⟩ := ih _ rfl
      exact (w.cells _ _ cell).1
  | cdr _ cell ih =>
      obtain ⟨-, rfl⟩ := ih _ rfl
      exact (w.cells _ _ cell).2

/-- Parts that are code stay parts: all pairs on the way to them are code,
because data have no parts that are code. -/
theorem part_grown (hle : w ≤ w') (h : w.Plays role v) (hpart : w.store.Part role v role' v')
    (hcode : role' ≠ .datum) : w'.store.Part role v role' v' := by
  induction hpart with
  | self => exact .self
  | @car role₁ r c before cell ih =>
      -- The pair before is code as well, so it has not changed.
      have hbefore : role₁ ≠ .datum := by
        rintro rfl
        exact hcode rfl
      obtain ⟨hlt, hrole⟩ := plays_of_part h before r rfl
      exact .car (ih hbefore) ((hle.code r hlt (hrole ▸ hbefore)).trans cell)
  | @cdr role₁ r c before cell ih =>
      have hbefore : role₁ ≠ .datum := by
        rintro rfl
        exact hcode rfl
      obtain ⟨hlt, hrole⟩ := plays_of_part h before r rfl
      exact .cdr (ih hbefore) ((hle.code r hlt (hrole ▸ hbefore)).trans cell)

theorem codeCell_grown {r : Ref} (hle : w ≤ w') (h : w.Plays role v)
    (hcell : w.store.CodeCell role v r) : w'.store.CodeCell role v r := by
  obtain ⟨role', hcode, hpart⟩ := hcell
  exact ⟨role', hcode, part_grown hle h hpart hcode⟩

/-- A chain of code stays the chain it is. -/
theorem spine_of_code {t : Store} (hcode : ∀ r < w.store.cells.size, w.roles r ≠ .datum →
      t.cells[r]? = w.store.cells[r]?) {items : List Value} {last : Value}
    (h : w.store.Spine v items last) :
    ∀ {role : Role}, role ≠ .datum → w.Plays role v → t.Spine v items last := by
  induction h with
  | @last v cell =>
      intro role _ hv
      refine .last ?_
      cases v with
      | pair r =>
          have hlt := (hv r rfl).1
          exact absurd cell (by simp [Store.cell?, hlt])
      | _ => rfl
  | @link v last c items cell _ ih =>
      intro role hne hv
      obtain ⟨r, rfl, hr⟩ := Store.cell?_eq_some cell
      obtain ⟨hlt, rfl⟩ := hv r rfl
      have hcell : t.cells[r]? = some c := (hcode r hlt hne).trans hr
      exact .link hcell (ih (Role.onCdr_ne_datum hne c) (w.cells r c hr).2)

/-- A list of expressions stays the list it is. -/
theorem spine_kept {t : Store} (hcode : ∀ r < w.store.cells.size, w.roles r ≠ .datum →
      t.cells[r]? = w.store.cells[r]?) {items : List Value} {last : Value}
    (h : w.store.Spine v items last) (hv : w.Plays .operands v) : t.Spine v items last :=
  spine_of_code hcode h (by decide) hv

/-- Chains of code end: each pair lies before the one that leads to it. -/
theorem exists_spine (hv : w.Plays role v) (hrole : role ≠ .datum) :
    ∃ items last, w.store.Spine v items last := by
  have key : ∀ (r : Ref) (role : Role), role ≠ .datum → w.Plays role (.pair r) →
      ∃ items last, w.store.Spine (.pair r) items last := by
    intro r
    induction r using Nat.strongRecOn with
    | ind r ih =>
        intro role hrole hr
        obtain ⟨hlt, rfl⟩ := hr r rfl
        have hcell : w.store.cells[r]? = some w.store.cells[r] := Array.getElem?_eq_getElem hlt
        have hcdr := (w.cells r _ hcell).2
        have hbefore := (w.descends r _ hcell hrole).2
        have hne := Role.onCdr_ne_datum hrole w.store.cells[r]
        cases hrest : w.store.cells[r].cdr with
        | pair q =>
            rw [hrest] at hcdr
            obtain ⟨items, last, hspine⟩ := ih q (hbefore q hrest) _ hne hcdr
            exact ⟨_, last, .link hcell (hrest ▸ hspine)⟩
        | _ => exact ⟨_, _, .link hcell (.last (by rw [hrest]; rfl))⟩
  cases v with
  | pair r => exact key r role hrole hv
  | _ => exact ⟨[], _, .last rfl⟩

/-! ### New worlds -/

/-- A store with consistent roles follows from one whose code it keeps. -/
theorem next (w : CodeWorld) {t : Store} (roles : Ref → Role)
    (hsize : w.store.cells.size ≤ t.cells.size)
    (hroles : ∀ r < w.store.cells.size, roles r = w.roles r)
    (hcode : ∀ r < w.store.cells.size, w.roles r ≠ .datum → t.cells[r]? = w.store.cells[r]?)
    (hcells : ∀ (r : Ref) (c : Cell), t.cells[r]? = some c →
      t.Plays roles ((roles r).onCar c) c.car ∧ t.Plays roles ((roles r).onCdr c) c.cdr)
    (hnew : ∀ (r : Ref) (c : Cell), w.store.cells.size ≤ r → t.cells[r]? = some c → c.Before r)
    (hframes : ∀ (r : Ref) (f : Frame), t.frames[r]? = some f → ∀ b ∈ f.bindings,
      t.Plays roles .datum b.2)
    (hclosures : t.closures = w.store.closures) :
    ∃ w', w ≤ w' ∧ w'.store = t ∧ w'.roles = roles := by
  -- Bodies of closures are code, so they are the lists that they were.
  refine ⟨⟨t, roles, hcells, fun r c hc hrole => ?_, hframes, fun r k hk => ?_⟩,
    ⟨hsize, hroles, hcode, fun r k hk => hclosures ▸ hk⟩, rfl, rfl⟩
  · by_cases hr : r < w.store.cells.size
    · rw [hroles r hr] at hrole
      exact w.descends r c ((hcode r hr hrole).symm.trans hc) hrole
    · exact hnew r c (Nat.not_lt.mp hr) hc
  rw [hclosures] at hk
  obtain ⟨hformals, hbody, items, hspine⟩ := w.closures r k hk
  exact ⟨hformals.mono hsize hroles, hbody.mono hsize hroles, items,
    spine_kept hcode hspine hbody⟩

/-- Pairs and closures stay, and frames hold data. -/
theorem of_eq (w : CodeWorld) {t : Store} (hcells : t.cells = w.store.cells)
    (hclosures : t.closures = w.store.closures)
    (hframes : ∀ (r : Ref) (f : Frame), t.frames[r]? = some f → ∀ b ∈ f.bindings,
      w.Plays .datum b.2) :
    ∃ w', w ≤ w' ∧ w'.store = t ∧ w'.roles = w.roles := by
  have hsize : w.store.cells.size ≤ t.cells.size := Nat.le_of_eq (by rw [hcells])
  refine w.next w.roles hsize (fun _ _ => rfl) (fun r _ _ => by rw [hcells]) (fun r c hc => ?_)
    (fun r c hlow hc => ?_)
    (fun r f hf b hb => (hframes r f hf b hb).mono hsize fun _ _ => rfl) hclosures
  · rw [hcells] at hc
    obtain ⟨hcar, hcdr⟩ := w.cells r c hc
    exact ⟨hcar.mono hsize fun _ _ => rfl, hcdr.mono hsize fun _ _ => rfl⟩
  · rw [hcells] at hc
    exact absurd (Array.getElem?_eq_some_iff.mp hc).1 (Nat.not_lt.mpr hlow)

/-- A new pair may have any role that its fields go with. -/
theorem cons (w : CodeWorld) (role : Role) {a d : Value} (ha : w.Plays (role.onCar ⟨a, d⟩) a)
    (hd : w.Plays (role.onCdr ⟨a, d⟩) d) :
    ∃ w', w ≤ w' ∧ w'.store = (w.store.cons a d).2 ∧ w'.roles w.store.cells.size = role := by
  -- Roles are given for good: the new pair gets one, and the others keep theirs.
  let roles : Ref → Role := fun r => if r = w.store.cells.size then role else w.roles r
  have hsize : w.store.cells.size ≤ (w.store.cons a d).2.cells.size := by
    simp [Store.cons]
  have hroles : ∀ r < w.store.cells.size, roles r = w.roles r :=
    fun r hr => if_neg (Nat.ne_of_lt hr)
  have hnew : roles w.store.cells.size = role := if_pos rfl
  obtain ⟨w', hle, hstore, hroles'⟩ := w.next (t := (w.store.cons a d).2) roles hsize hroles
    (fun r hr _ => by simp [Store.cons, Array.getElem?_push, Nat.ne_of_lt hr])
    (fun r c hc => by
      have hpush : (w.store.cells.push ⟨a, d⟩)[r]? = some c := hc
      rw [Array.getElem?_push] at hpush
      split at hpush
      · rename_i hr
        cases hpush
        rw [hr, hnew]
        exact ⟨ha.mono hsize hroles, hd.mono hsize hroles⟩
      · obtain ⟨hcar, hcdr⟩ := w.cells r c hpush
        rw [hroles r (Array.getElem?_eq_some_iff.mp hpush).1]
        exact ⟨hcar.mono hsize hroles, hcdr.mono hsize hroles⟩)
    (fun r c hlow hc => by
      have hpush : (w.store.cells.push ⟨a, d⟩)[r]? = some c := hc
      rw [Array.getElem?_push] at hpush
      split at hpush
      · -- The fields of the new pair were there before it.
        rename_i hr
        cases hpush
        rw [hr]
        exact ⟨fun q hq => (ha q hq).1, fun q hq => (hd q hq).1⟩
      · exact absurd (Array.getElem?_eq_some_iff.mp hpush).1 (Nat.not_lt.mpr hlow))
    (fun r f hf b hb => (w.frames r f hf b hb).mono hsize hroles) rfl
  exact ⟨w', hle, hstore, hroles' ▸ hnew⟩

theorem size_of_cons {w w' : CodeWorld} {a d : Value} (hstore : w'.store = (w.store.cons a d).2) :
    w'.store.cells.size = w.store.cells.size + 1 := by
  rw [hstore]
  exact Array.size_push _

/-- The new pair plays the role that it was given. -/
theorem plays_of_cons {w w' : CodeWorld} {role : Role} {a d : Value}
    (hstore : w'.store = (w.store.cons a d).2) (hrole : w'.roles w.store.cells.size = role) :
    w'.Plays role (w.store.cons a d).1 := by
  rintro r ⟨⟩
  exact ⟨size_of_cons hstore ▸ Nat.lt_succ_self _, hrole⟩

/-- A datum gets other fields, which are data. -/
theorem modify (w : CodeWorld) {r : Ref} {f : Cell → Cell} (hr : w.Plays .datum (.pair r))
    (hf : ∀ c, w.store.cells[r]? = some c → w.Plays .datum (f c).car ∧ w.Plays .datum (f c).cdr) :
    ∃ w', w ≤ w' ∧ w'.store = { w.store with cells := w.store.cells.modify r f } ∧
      w'.roles = w.roles := by
  have hrole : w.roles r = .datum := (hr r rfl).2
  have hsize : w.store.cells.size ≤ (w.store.cells.modify r f).size := by simp
  refine w.next w.roles hsize (fun _ _ => rfl) (fun q hq hcode => ?_) (fun q c hc => ?_)
    (fun q c hlow hc => ?_)
    (fun q g hg b hb => (w.frames q g hg b hb).mono hsize fun _ _ => rfl) rfl
  · -- The changed pair is a datum, so it is none of the code.
    have hne : r ≠ q := fun h => hcode (h ▸ hrole)
    simp [Array.getElem?_modify, hne]
  · have hmodify : (w.store.cells.modify r f)[q]? = some c := hc
    rw [Array.getElem?_modify] at hmodify
    split at hmodify
    · rename_i hq
      subst hq
      obtain ⟨c, hcell, rfl⟩ := Option.map_eq_some_iff.mp hmodify
      obtain ⟨hcar, hcdr⟩ := hf c hcell
      rw [hrole]
      exact ⟨hcar.mono hsize fun _ _ => rfl, hcdr.mono hsize fun _ _ => rfl⟩
    · obtain ⟨hcar, hcdr⟩ := w.cells q c hmodify
      exact ⟨hcar.mono hsize fun _ _ => rfl, hcdr.mono hsize fun _ _ => rfl⟩
  · have hlt := (Array.getElem?_eq_some_iff.mp hc).1
    rw [Array.size_modify] at hlt
    exact absurd hlt (Nat.not_lt.mpr hlow)

/-- A closure of code is made. -/
theorem newClosure (w : CodeWorld) {k : Closure} (hformals : w.Plays .inert k.formals)
    (hbody : w.Plays .operands k.body) {items : List Value}
    (hspine : w.store.Spine k.body items .nil) :
    ∃ w', w ≤ w' ∧ w'.store = (w.store.newClosure k).2 ∧ w'.roles = w.roles := by
  have hcode : ∀ r < w.store.cells.size, w.roles r ≠ .datum →
      (w.store.newClosure k).2.cells[r]? = w.store.cells[r]? := fun _ _ _ => rfl
  refine ⟨⟨(w.store.newClosure k).2, w.roles, w.cells, w.descends, w.frames, fun r k' hk' => ?_⟩,
    ⟨Nat.le_refl _, fun _ _ => rfl, hcode, fun r k' hk' => Store.getElem?_push_of_some _ hk'⟩,
    rfl, rfl⟩
  have hpush : (w.store.closures.push k)[r]? = some k' := hk'
  rw [Array.getElem?_push] at hpush
  split at hpush
  · cases hpush
    exact ⟨hformals, hbody, items, spine_kept hcode hspine hbody⟩
  · obtain ⟨hformals', hbody', items', hspine'⟩ := w.closures r k' hpush
    exact ⟨hformals', hbody', items', spine_kept hcode hspine' hbody'⟩

/-! ### Loaded expressions -/

theorem loadItems_of_forall {ds : List Datum}
    (h : ∀ d ∈ ds, ∀ w : CodeWorld, ∃ w', w ≤ w' ∧ w'.store = (w.store.load d).2 ∧
      ∀ r, w.store.cells.size ≤ r → r < w'.store.cells.size → w'.roles r = .datum) :
    ∀ w : CodeWorld, ∃ w', w ≤ w' ∧ w'.store = (Store.loadItems [] ds w.store).2 ∧
      ∀ r, w.store.cells.size ≤ r → r < w'.store.cells.size → w'.roles r = .datum := by
  induction ds with
  | nil =>
      intro w
      exact ⟨w, le_refl w, rfl, fun r hlow hhigh => absurd hhigh (Nat.not_lt.mpr hlow)⟩
  | cons d ds ih =>
      intro w
      obtain ⟨w₁, hle₁, hstore₁, hnew₁⟩ := h d List.mem_cons_self w
      obtain ⟨w₂, hle₂, hstore₂, hnew₂⟩ := ih (fun e he => h e (List.mem_cons_of_mem d he)) w₁
      rw [hstore₁] at hstore₂
      rw [Store.loadItems_cons]
      refine ⟨w₂, hle₁.trans hle₂, hstore₂, fun r hlow hhigh => ?_⟩
      by_cases hr : r < w₁.store.cells.size
      · rw [hle₂.roles r hr]
        exact hnew₁ r hlow hr
      · exact hnew₂ r (Nat.not_lt.mp hr) hhigh

/-- Code that is new in the second world is a part of the value. -/
def NewCodeIn (w w' : CodeWorld) (role : Role) (v : Value) : Prop :=
  ∀ r, w.store.cells.size ≤ r → r < w'.store.cells.size → w'.roles r ≠ .datum →
    w'.store.Part role v (w'.roles r) (.pair r)

theorem NewCodeIn.part {w₁ w₂ : CodeWorld} (h : NewCodeIn w w₁ role v) (hv : w₁.Plays role v)
    (hle : w₁ ≤ w₂) {r : Ref} (hlow : w.store.cells.size ≤ r) (hhigh : r < w₁.store.cells.size)
    (hcode : w₂.roles r ≠ .datum) : w₂.store.Part role v (w₂.roles r) (.pair r) := by
  rw [hle.roles r hhigh] at hcode ⊢
  exact part_grown hle hv (h r hlow hhigh hcode) hcode

/-- New code in the fields of a pair that is made last of all is code in the
pair. -/
theorem NewCodeIn.pair {w₁ w₂ w₃ : CodeWorld} {a b : Value}
    (hnew₁ : NewCodeIn w w₁ (role.onCar ⟨a, b⟩) a) (hnew₂ : NewCodeIn w₁ w₂ (role.onCdr ⟨a, b⟩) b)
    (ha : w₁.Plays (role.onCar ⟨a, b⟩) a) (hb : w₂.Plays (role.onCdr ⟨a, b⟩) b)
    (hle₂ : w₁ ≤ w₂) (hle₃ : w₂ ≤ w₃) (hstore : w₃.store = (w₂.store.cons a b).2)
    (hrole : w₃.roles w₂.store.cells.size = role) :
    NewCodeIn w w₃ role (.pair w₂.store.cells.size) := by
  have hself : w₃.store.Part role (.pair w₂.store.cells.size) role _ := .self
  have hcell : w₃.store.cells[w₂.store.cells.size]? = some ⟨a, b⟩ := by
    rw [hstore]
    exact Array.getElem?_push_size
  intro r hlow hhigh hcode
  -- A new pair is new in the first field, or in the second, or is the last one.
  by_cases hr₁ : r < w₁.store.cells.size
  · exact (hself.car hcell).trans (hnew₁.part ha (hle₂.trans hle₃) hlow hr₁ hcode)
  by_cases hr₂ : r < w₂.store.cells.size
  · exact (hself.cdr hcell).trans (hnew₂.part hb hle₃ (Nat.not_lt.mp hr₁) hr₂ hcode)
  · have hsize := size_of_cons hstore
    obtain rfl : r = w₂.store.cells.size := by omega
    rw [hrole]
    exact .self

/-- A loaded value may have any role. The new pairs are its parts, with the
roles that follow from its own, or data. -/
theorem load (d : Datum) : ∀ (w : CodeWorld) (role : Role), ∃ w', w ≤ w' ∧
    w'.store = (w.store.load d).2 ∧ w'.Plays role (w.store.load d).1 ∧
    NewCodeIn w w' role (w.store.load d).1 := by
  induction d using Datum.treeInduction with
  | number | symbol | boolean | nil =>
      intro w role
      exact ⟨w, le_refl w, rfl, Store.plays_of_ne_pair (by rintro r ⟨⟩),
        fun r hlow hhigh => absurd hhigh (Nat.not_lt.mpr hlow)⟩
  | text t =>
      intro w role
      obtain ⟨w', hle, hstore, -⟩ :=
        w.of_eq (t := (w.store.newString t).2) rfl rfl w.frames
      refine ⟨w', hle, hstore, Store.plays_of_ne_pair (by rintro r ⟨⟩), fun r hlow hhigh => ?_⟩
      rw [hstore] at hhigh
      exact absurd hhigh (Nat.not_lt.mpr hlow)
  | pair car cdr ihcar ihcdr =>
      intro w role
      rw [Store.load_pair]
      -- The role of a part depends on both fields of the pair, which is made last.
      obtain ⟨w₁, hle₁, hstore₁, hcar, hnew₁⟩ := ihcar w
        (role.onCar ⟨(w.store.load car).1, ((w.store.load car).2.load cdr).1⟩)
      obtain ⟨w₂, hle₂, hstore₂, hcdr, hnew₂⟩ := ihcdr w₁
        (role.onCdr ⟨(w.store.load car).1, ((w.store.load car).2.load cdr).1⟩)
      rw [hstore₁] at hstore₂ hcdr hnew₂
      obtain ⟨w₃, hle₃, hstore₃, hrole⟩ := w₂.cons role (hcar.grown hle₂) hcdr
      rw [← hstore₂]
      exact ⟨w₃, (hle₁.trans hle₂).trans hle₃, hstore₃, plays_of_cons hstore₃ hrole,
        hnew₁.pair hnew₂ hcar hcdr hle₂ hle₃ hstore₃ hrole⟩
  | vector items ih =>
      intro w role
      rw [Store.load_vector]
      -- Vectors are no code, so all pairs in them are loaded as data.
      obtain ⟨w₁, hle₁, hstore₁, hnew₁⟩ := loadItems_of_forall (fun d hd w => by
        obtain ⟨w', hle, hstore, -, hnew⟩ := ih d hd w .datum
        refine ⟨w', hle, hstore, fun r hlow hhigh => ?_⟩
        by_contra hcode
        exact hcode (hnew r hlow hhigh hcode).eq_datum) w
      obtain ⟨w₂, hle₂, hstore₂, hroles₂⟩ := w₁.of_eq
        (t := (w₁.store.newVector (Store.loadItems [] items w.store).1).2) rfl rfl w₁.frames
      rw [hstore₁] at hstore₂
      refine ⟨w₂, hle₁.trans hle₂, hstore₂, Store.plays_of_ne_pair (by rintro r ⟨⟩), ?_⟩
      intro r hlow hhigh hcode
      have hhigh₁ : r < w₁.store.cells.size := by
        rw [hstore₂] at hhigh
        rw [hstore₁]
        exact hhigh
      rw [hroles₂] at hcode
      exact absurd (hnew₁ r hlow hhigh₁) hcode

end CodeWorld

/-! ### The discipline -/

/-- Values have the roles they stand in. Every pair that is code belongs to
an expression that was read. -/
def codeDemand : Demand CodeWorld where
  store w := w.store
  Holds w role v := w.Plays role v
  Visible _ _ := True
  Body w v := w.Plays .operands v ∧ ∃ items, w.store.Spine v items .nil
  Reads w es := (∀ e ∈ es, w.Plays .expression e) ∧
    ∀ r < w.store.cells.size, w.roles r ≠ .datum → ∃ e ∈ es, w.store.CodeCell .expression e r
  holds_mono hle h := h.grown hle
  visible_mono _ _ := trivial
  body_mono hle h := by
    obtain ⟨hv, items, hspine⟩ := h
    exact ⟨hv.grown hle, items, CodeWorld.spine_kept hle.code hspine hv⟩

namespace CodeWorld

/-- Pairs that a program makes are data. -/
theorem next_of_data {w w' : CodeWorld} (hle : w ≤ w')
    (hnew : ∀ r, w.store.cells.size ≤ r → r < w'.store.cells.size → w'.roles r = .datum) :
    codeDemand.Next w w' := by
  refine ⟨hle, fun es ⟨hes, hcover⟩ => ⟨fun e he => (hes e he).grown hle, fun r hr hcode => ?_⟩⟩
  by_cases hold : r < w.store.cells.size
  · rw [hle.roles r hold] at hcode
    obtain ⟨e, he, hcell⟩ := hcover r hold hcode
    exact ⟨e, he, codeCell_grown hle (hes e he) hcell⟩
  · exact absurd (hnew r (Nat.not_lt.mp hold) hr) hcode

theorem next_of_size_eq {w w' : CodeWorld} (hle : w ≤ w')
    (hsize : w'.store.cells.size = w.store.cells.size) : codeDemand.Next w w' :=
  next_of_data hle fun r hlow hhigh => absurd hhigh (by omega)

/-- No operation gives a program hold of code. -/
def discipline : Discipline CodeWorld where
  toDemand := codeDemand
  atom {w role v} h := Store.plays_of_ne_pair fun r hr => by
    subst hr
    exact h
  constant h _ := Store.plays_of_ne_pair h
  -- The role of a pair fixes those of its fields.
  car {w role r c} hc h := by
    obtain ⟨-, rfl⟩ := h r rfl
    exact (w.cells r c hc).1
  cdr {w role r c} hc h := by
    obtain ⟨-, rfl⟩ := h r rfl
    exact (w.cells r c hc).2
  body hspine h := ⟨h, _, hspine⟩
  operands h := h.1
  closure {w r k} hk _ := ⟨(w.closures r k hk).2, trivial⟩
  lookup {w env name v} h _ := by
    obtain ⟨r, f, -, hf, hmem⟩ := Store.lookup?_eq_some h
    exact w.frames r f hf _ hmem
  assign {w env r name v} _ _ hv := by
    obtain ⟨w', hle, hstore, -⟩ := w.of_eq
      (t := w.store.bind r name v) rfl rfl fun q g hg b hb => by
      have hmodify : (w.store.frames.modify r fun f => f.bind name v)[q]? = some g := hg
      rw [Array.getElem?_modify] at hmodify
      split at hmodify
      · obtain ⟨f, hf, rfl⟩ := Option.map_eq_some_iff.mp hmodify
        rcases mem_insert hb with rfl | hb
        · exact hv
        · exact w.frames q f hf b hb
      · exact w.frames q g hmodify b hb
    exact ⟨w', next_of_size_eq hle (by rw [hstore]; rfl), hstore⟩
  cons {w a d} ha hd := by
    obtain ⟨w', hle, hstore, hrole⟩ := w.cons .datum ha hd
    refine ⟨w', next_of_data hle fun r hlow hhigh => ?_, hstore, plays_of_cons hstore hrole⟩
    have hsize := size_of_cons hstore
    obtain rfl : r = w.store.cells.size := by omega
    exact hrole
  -- Only a datum is changed, and the field that stays is a datum, too.
  setCar {w r v} hr hv := by
    obtain ⟨w', hle, hstore, -⟩ := w.modify (f := fun c => { c with car := v }) hr fun c hc => by
      have hcdr := (w.cells r c hc).2
      rw [(hr r rfl).2] at hcdr
      exact ⟨hv, hcdr⟩
    exact ⟨w', next_of_size_eq hle (by rw [hstore]; exact Array.size_modify), hstore⟩
  setCdr {w r v} hr hv := by
    obtain ⟨w', hle, hstore, -⟩ := w.modify (f := fun c => { c with cdr := v }) hr fun c hc => by
      have hcar := (w.cells r c hc).1
      rw [(hr r rfl).2] at hcar
      exact ⟨hcar, hv⟩
    exact ⟨w', next_of_size_eq hle (by rw [hstore]; exact Array.size_modify), hstore⟩
  newClosure {w k} hformals hbody _ := by
    obtain ⟨hoperands, items, hspine⟩ := hbody
    obtain ⟨w', hle, hstore, -⟩ := w.newClosure hformals hoperands hspine
    exact ⟨w', next_of_size_eq hle (by rw [hstore]; rfl), hstore,
      Store.plays_of_ne_pair (by rintro r ⟨⟩)⟩
  newFrame {w bindings outer} hbindings _ := by
    obtain ⟨w', hle, hstore, -⟩ := w.of_eq
      (t := (w.store.newFrame ⟨bindings, some outer⟩).2) rfl rfl fun q g hg b hb => by
        have hpush : (w.store.frames.push ⟨bindings, some outer⟩)[q]? = some g := hg
        rw [Array.getElem?_push] at hpush
        split at hpush
        · cases hpush
          exact hbindings b hb
        · exact w.frames q g hpush b hb
    exact ⟨w', next_of_size_eq hle (by rw [hstore]; rfl), hstore, trivial⟩
  load {w es d} _ hread := by
    obtain ⟨hes, hcover⟩ := hread
    obtain ⟨w', hle, hstore, hexpr, hnew⟩ := CodeWorld.load d w .expression
    refine ⟨w', hle, hstore, hexpr, fun e he => ?_, fun r hr hcode => ?_⟩
    · rcases List.mem_cons.mp he with rfl | he
      · exact hexpr
      · exact (hes e he).grown hle
    · -- Code that was there belongs to an earlier expression, new code to this one.
      by_cases hold : r < w.store.cells.size
      · rw [hle.roles r hold] at hcode
        obtain ⟨e, he, hcell⟩ := hcover r hold hcode
        exact ⟨e, List.mem_cons_of_mem _ he, codeCell_grown hle (hes e he) hcell⟩
      · exact ⟨_, List.mem_cons_self, _, hcode, hnew r (Nat.not_lt.mp hold) hr hcode⟩

end CodeWorld

end MiniScheme
