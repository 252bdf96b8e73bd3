import MiniScheme.Proofs.References
import MiniScheme.Proofs.Unfolding

/-!
# `MiniScheme.Proofs.FreshTrees`: loaded data are trees of new objects

`Store.Unfolds` says what a value looks like, and nothing about sharing. This
file says where its objects are. `v` leads along a path of selectors to the
values in it (`s.LeadsTo v path w`), and a row of values is planted between two
stores (`Store.Planted`) if all objects at the places of these values are new
since the first store, are there in the second one, and stand at one place of
one of the values each.

Loading plants what it makes (`planted_load`, `planted_loadItems`). The data of
a pair or vector are loaded one after the other, so each one has its objects
from a part of the time of its own. This is why no object of one is an object
of another, and it is all that `Planted.cons` uses.
-/

set_option autoImplicit false

namespace MiniScheme

/-- One step from a pair or a vector to a value in it. -/
inductive Selector where
  | car
  | cdr
  | item (index : Nat)

namespace Store

/-- The path leads from the first value to the second. -/
inductive LeadsTo (s : Store) : Value → List Selector → Value → Prop
  | here (v : Value) : LeadsTo s v [] v
  | car {r : Ref} {c : Cell} {path : List Selector} {w : Value} (cell : s.cells[r]? = some c)
      (rest : LeadsTo s c.car path w) : LeadsTo s (.pair r) (.car :: path) w
  | cdr {r : Ref} {c : Cell} {path : List Selector} {w : Value} (cell : s.cells[r]? = some c)
      (rest : LeadsTo s c.cdr path w) : LeadsTo s (.pair r) (.cdr :: path) w
  | item {r : Ref} {items : List Value} {i : Nat} {v w : Value} {path : List Selector}
      (contents : s.vectors[r]? = some items) (place : items[i]? = some v)
      (rest : LeadsTo s v path w) : LeadsTo s (.vector r) (.item i :: path) w

variable {s t t' u : Store} {v w : Value} {path path' : List Selector} {row kids : List Value}
  {o : Object}

namespace LeadsTo

theorem append (h : s.LeadsTo v path w) {x : Value} (k : s.LeadsTo w path' x) :
    s.LeadsTo v (path ++ path') x := by
  induction h with
  | here => exact k
  | car cell _ ih => exact .car cell (ih k)
  | cdr cell _ ih => exact .cdr cell (ih k)
  | item contents place _ ih => exact .item contents place (ih k)

/-- What is no object leads nowhere else. -/
theorem of_object?_eq_none (h : s.LeadsTo v path w) (hv : v.object? = none) : w = v := by
  cases h with
  | here => rfl
  | car => cases hv
  | cdr => cases hv
  | item => cases hv

end LeadsTo

/-! ### Planted rows -/

theorem Extends.has (h : Extends s t) (ho : s.Has o) : t.Has o := by
  cases o with
  | cell r =>
      have hcell : s.cells[r]? = some s.cells[r] := Array.getElem?_eq_getElem ho
      exact (Array.getElem?_eq_some_iff.mp (h.cells hcell)).1
  | vector r =>
      have hitems : s.vectors[r]? = some s.vectors[r] := Array.getElem?_eq_getElem ho
      exact (Array.getElem?_eq_some_iff.mp (h.vectors hitems)).1
  | closure r => exact (congrArg (r < ·.size) h.closures).mpr ho
  | frame r => exact (congrArg (r < ·.size) h.frames).mpr ho
  | primitive r => exact (congrArg (r < ·.size) h.primitives).mpr ho

/-- As `u` has it, the objects at the places of these values came between the
stores `s` and `t`, and each of them stands at one place of one value. -/
structure Planted (s t u : Store) (row : List Value) : Prop where
  new : ∀ {i : Nat} {v w : Value} {path : List Selector} {o : Object}, row[i]? = some v →
    u.LeadsTo v path w → w.object? = some o → ¬s.Has o ∧ t.Has o
  once : ∀ {i j : Nat} {v v' w : Value} {path path' : List Selector} {o : Object},
    row[i]? = some v → row[j]? = some v' → u.LeadsTo v path w → u.LeadsTo v' path' w →
    w.object? = some o → i = j ∧ path = path'

namespace Planted

theorem nil (s t u : Store) : Planted s t u [] := ⟨by simp, by simp⟩

theorem leaf (s t u : Store) (hv : v.object? = none) : Planted s t u [v] := by
  have hnone {i : Nat} {v' w : Value} {path : List Selector} {o : Object}
      (hi : [v][i]? = some v') (h : u.LeadsTo v' path w) : w.object? ≠ some o := by
    obtain rfl := List.mem_singleton.mp (List.mem_of_getElem? hi)
    rw [h.of_object?_eq_none hv, hv]
    exact nofun
  exact ⟨fun hi h ho => absurd ho (hnone hi h), fun hi _ h _ ho => absurd ho (hnone hi h)⟩

/-- A value is planted first and a row after it. -/
theorem cons {mid : Store} (hv : Planted s mid u [v]) (hrow : Planted mid t u row)
    (hs : ∀ {o}, s.Has o → mid.Has o) (ht : ∀ {o}, mid.Has o → t.Has o) :
    Planted s t u (v :: row) where
  new := by
    intro i v' w path o hi h ho
    cases i with
    | zero =>
        obtain ⟨hold, hnew⟩ := hv.new (i := 0) hi h ho
        exact ⟨hold, ht hnew⟩
    | succ i =>
        obtain ⟨hold, hnew⟩ := hrow.new hi h ho
        exact ⟨fun hs' => hold (hs hs'), hnew⟩
  once := by
    intro i j v₁ v₂ w path path' o hi hj h h' ho
    -- An object of both was there in the middle and was not.
    cases i with
    | zero =>
        cases j with
        | zero => exact ⟨rfl, (hv.once (i := 0) (j := 0) hi hj h h' ho).2⟩
        | succ j => exact absurd (hv.new (i := 0) hi h ho).2 (hrow.new hj h' ho).1
    | succ i =>
        cases j with
        | zero => exact absurd (hv.new (i := 0) hj h' ho).2 (hrow.new hi h ho).1
        | succ j =>
            obtain ⟨rfl, hpath⟩ := hrow.once hi hj h h' ho
            exact ⟨rfl, hpath⟩

/-- A new object that holds a planted row is planted. -/
theorem branch (select : Nat → Selector) (hkids : Planted s t u kids)
    (hs : ∀ {o}, s.Has o → t.Has o) (hadds : t.Adds t' o) (hv : v.object? = some o)
    (hleads : ∀ {path w}, u.LeadsTo v path w → (path = [] ∧ w = v) ∨
      ∃ i kid rest, kids[i]? = some kid ∧ path = select i :: rest ∧ u.LeadsTo kid rest w) :
    Planted s t' u [v] where
  new := by
    intro i v' w path o' hi h ho
    obtain rfl := List.mem_singleton.mp (List.mem_of_getElem? hi)
    rcases hleads h with ⟨-, rfl⟩ | ⟨j, kid, rest, hj, -, hrest⟩
    · obtain rfl := Option.some.inj (hv.symm.trans ho)
      exact ⟨fun hold => hadds.fresh (hs hold), hadds.made⟩
    · obtain ⟨hold, hnew⟩ := hkids.new hj hrest ho
      exact ⟨hold, hadds.has o' hnew⟩
  once := by
    intro i j v₁ v₂ w path path' o' hi hj h h' ho
    have hi0 : i = 0 := by
      have := (List.getElem?_eq_some_iff.mp hi).1
      simpa using this
    have hj0 : j = 0 := by
      have := (List.getElem?_eq_some_iff.mp hj).1
      simpa using this
    obtain rfl := List.mem_singleton.mp (List.mem_of_getElem? hi)
    obtain rfl := List.mem_singleton.mp (List.mem_of_getElem? hj)
    refine ⟨hi0.trans hj0.symm, ?_⟩
    -- The object itself is none of those in the row, which were there before it.
    rcases hleads h with ⟨rfl, rfl⟩ | ⟨k, kid, rest, hk, rfl, hrest⟩
    · rcases hleads h' with ⟨rfl, -⟩ | ⟨k, kid, rest, hk, -, hrest⟩
      · rfl
      · obtain rfl := Option.some.inj (hv.symm.trans ho)
        exact absurd (hkids.new hk hrest ho).2 hadds.fresh
    · rcases hleads h' with ⟨-, rfl⟩ | ⟨k', kid', rest', hk', rfl, hrest'⟩
      · obtain rfl := Option.some.inj (hv.symm.trans ho)
        exact absurd (hkids.new hk hrest ho).2 hadds.fresh
      · obtain ⟨rfl, rfl⟩ := hkids.once hk hk' hrest hrest' ho
        rfl

/-- An object in a planted row leads back to itself nowhere. -/
theorem acyclic {i : Nat} (h : Planted s t u row) (hi : row[i]? = some v)
    (hv : u.LeadsTo v path w) (hw : w.object? = some o) (hloop : u.LeadsTo w path' w) :
    path' = [] := by
  have hsame := (h.once hi hi hv (hv.append hloop) hw).2
  simpa using hsame

end Planted

/-! ### Loading -/

/-- A row of data is planted if each of them is. -/
theorem planted_loadItems_of_forall {ds : List Datum}
    (h : ∀ d ∈ ds, ∀ s u, Extends (s.load d).2 u → Planted s (s.load d).2 u [(s.load d).1]) :
    ∀ s u, Extends (loadItems [] ds s).2 u →
      Planted s (loadItems [] ds s).2 u (loadItems [] ds s).1 := by
  induction ds with
  | nil => exact fun s u _ => .nil _ _ _
  | cons d ds ih =>
      intro s u hu
      rw [loadItems_cons] at hu ⊢
      have hrest := extends_loadItems ds (s.load d).2
      exact (h d List.mem_cons_self s u (hrest.trans hu)).cons
        (ih (fun e he => h e (List.mem_cons_of_mem d he)) _ u hu) (extends_load d s).has hrest.has

/-- Loading a datum plants it. -/
theorem planted_load (d : Datum) :
    ∀ s u, Extends (s.load d).2 u → Planted s (s.load d).2 u [(s.load d).1] := by
  induction d using Datum.treeInduction with
  | number | text | symbol | boolean | nil => exact fun s u _ => .leaf _ _ _ rfl
  | pair car cdr ihcar ihcdr =>
      -- The first field is loaded before the second, and the pair is made last.
      intro s u hu
      rw [load_pair] at hu ⊢
      have hcons := extends_cons ((s.load car).2.load cdr).2 (s.load car).1
        ((s.load car).2.load cdr).1
      have hcar := extends_load car s
      have hcdr := extends_load cdr (s.load car).2
      have hkids := (ihcar s u (hcdr.trans (hcons.trans hu))).cons
        (ihcdr _ u (hcons.trans hu)) hcar.has hcdr.has
      have hcell : u.cells[((s.load car).2.load cdr).2.cells.size]? = some ⟨_, _⟩ :=
        hu.cells Array.getElem?_push_size
      refine .branch (fun i => if i = 0 then .car else .cdr) hkids (hcar.trans hcdr).has
        (adds_cons _ _ _) rfl fun {path w} h => ?_
      cases h with
      | here => exact .inl ⟨rfl, rfl⟩
      | car cell rest =>
          obtain rfl := Option.some.inj (hcell.symm.trans cell)
          exact .inr ⟨0, _, _, rfl, rfl, rest⟩
      | cdr cell rest =>
          obtain rfl := Option.some.inj (hcell.symm.trans cell)
          exact .inr ⟨1, _, _, rfl, rfl, rest⟩
  | vector items ih =>
      intro s u hu
      rw [load_vector] at hu ⊢
      have hnew := extends_newVector (loadItems [] items s).2 (loadItems [] items s).1
      have hkids := planted_loadItems_of_forall ih s u (hnew.trans hu)
      have hitems : u.vectors[(loadItems [] items s).2.vectors.size]? = some _ :=
        hu.vectors Array.getElem?_push_size
      refine .branch .item hkids (extends_loadItems items s).has (adds_newVector _ _) rfl
        fun {path w} h => ?_
      cases h with
      | here => exact .inl ⟨rfl, rfl⟩
      | item contents place rest =>
          obtain rfl := Option.some.inj (hitems.symm.trans contents)
          exact .inr ⟨_, _, _, place, rfl, rest⟩

/-- Loading a row of data plants it. -/
theorem planted_loadItems (ds : List Datum) (s : Store) :
    Planted s (loadItems [] ds s).2 (loadItems [] ds s).2 (loadItems [] ds s).1 :=
  planted_loadItems_of_forall (fun d _ => planted_load d) s _ (.refl _)

end Store

end MiniScheme
