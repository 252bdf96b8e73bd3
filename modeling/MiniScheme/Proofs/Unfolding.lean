import Mathlib.Data.List.Forall2
import MiniScheme.Proofs.Loading
import MiniScheme.Proofs.Spine

/-!
# `MiniScheme.Proofs.Unfolding`: values as finite trees

`s.Unfolds v d` says that the value `v`, followed through the pairs and
vectors of the store `s`, is the finite tree `d`. Shared parts unfold once
at every place, and a value that lies on a cycle unfolds to nothing,
because the relation is inductive. It is how this library speaks of
acyclic values.

* `Unfolds.unique`: a value unfolds to at most one datum.
* `Unfolds.mono`: more objects do not change an unfolding.
* `unfolds_load`: what loading a datum makes unfolds to it.
* `Unfolds.spineLength_le`: a chain of pairs that unfolds is no longer
  than the number of pairs. The walks along chains count their steps
  against that number, so they reach the end.
-/

set_option autoImplicit false

namespace MiniScheme

namespace Store

/-- The value, followed through pairs and vectors, is the finite tree. -/
inductive Unfolds (s : Store) : Value → Datum → Prop
  | number (n : Number) : Unfolds s (.number n) (.number n)
  | text (tag : Nat) (t : String) : Unfolds s (.text tag t) (.text t)
  | symbol (name : String) : Unfolds s (.symbol name) (.symbol name)
  | boolean (b : Bool) : Unfolds s (.boolean b) (.boolean b)
  | nil : Unfolds s .nil .nil
  | pair {r : Ref} {c : Cell} {car cdr : Datum} (cell : s.cells[r]? = some c)
      (first : Unfolds s c.car car) (rest : Unfolds s c.cdr cdr) :
      Unfolds s (.pair r) (.pair car cdr)
  | vector {r : Ref} {vs : List Value} {ds : List Datum} (items : s.vectors[r]? = some vs)
      (same : vs.length = ds.length)
      (each : ∀ i (h : i < vs.length) (k : i < ds.length),
        Unfolds s (vs.get ⟨i, h⟩) (ds.get ⟨i, k⟩)) :
      Unfolds s (.vector r) (.vector ds)

namespace Unfolds

variable {s : Store}

/-- The elements of a vector unfold one by one. -/
theorem forall₂_iff {vs : List Value} {ds : List Datum} :
    List.Forall₂ s.Unfolds vs ds ↔ vs.length = ds.length ∧
      ∀ i (h : i < vs.length) (k : i < ds.length),
        s.Unfolds (vs.get ⟨i, h⟩) (ds.get ⟨i, k⟩) :=
  List.forall₂_iff_get

/-- A value unfolds to at most one datum. -/
theorem unique {v : Value} {d e : Datum} (hd : s.Unfolds v d) (he : s.Unfolds v e) : d = e := by
  induction hd generalizing e with
  | number | text | symbol | boolean | nil => cases he; rfl
  | pair cell _ _ ihcar ihcdr =>
      cases he with
      | pair cell' hcar hcdr =>
          obtain rfl := Option.some.inj (cell.symm.trans cell')
          rw [ihcar hcar, ihcdr hcdr]
  | vector items same _ ih =>
      cases he with
      | vector items' same' each' =>
          obtain rfl := Option.some.inj (items.symm.trans items')
          congr 1
          refine List.ext_get (same.symm.trans same') fun i h k => ?_
          exact ih i (same ▸ h) h (each' i (same ▸ h) k)

/-- More objects do not change an unfolding. -/
theorem mono {t : Store} (hst : Extends s t) {v : Value} {d : Datum} (h : s.Unfolds v d) :
    t.Unfolds v d := by
  induction h with
  | number n => exact .number n
  | text tag t => exact .text tag t
  | symbol name => exact .symbol name
  | boolean b => exact .boolean b
  | nil => exact .nil
  | pair cell _ _ ihcar ihcdr => exact .pair (hst.cells cell) ihcar ihcdr
  | vector items same _ ih => exact .vector (hst.vectors items) same ih

end Unfolds

/-! ### Loaded data -/

/-- Data loaded one after the other unfold to what they were, when each
one does by itself. -/
theorem forall₂_unfolds_loadItems_of_forall {ds : List Datum}
    (h : ∀ d ∈ ds, ∀ s : Store, (s.load d).2.Unfolds (s.load d).1 d) :
    ∀ s : Store, List.Forall₂ (loadItems [] ds s).2.Unfolds (loadItems [] ds s).1 ds := by
  induction ds with
  | nil => intro s; exact .nil
  | cons d ds ih =>
      intro s
      rw [loadItems_cons]
      -- The first element was loaded into an earlier store than the rest.
      exact .cons ((h d List.mem_cons_self s).mono (extends_loadItems ds _))
        (ih (fun e he => h e (List.mem_cons_of_mem d he)) _)

/-- What loading a datum makes unfolds to that datum. -/
theorem unfolds_load (d : Datum) : ∀ s : Store, (s.load d).2.Unfolds (s.load d).1 d := by
  induction d using Datum.treeInduction with
  | number n => intro s; exact .number n
  | text t => intro s; exact .text _ t
  | symbol name => intro s; exact .symbol name
  | boolean b => intro s; exact .boolean b
  | nil => intro s; exact .nil
  | pair car cdr ihcar ihcdr =>
      intro s
      rw [load_pair]
      have hcdr := extends_load cdr (s.load car).2
      have hcons := extends_cons ((s.load car).2.load cdr).2 (s.load car).1
        ((s.load car).2.load cdr).1
      have hcell : _ = some (Cell.mk _ _) := cell?_cons ((s.load car).2.load cdr).2
        (s.load car).1 ((s.load car).2.load cdr).1
      exact .pair hcell ((ihcar s).mono (hcdr.trans hcons)) ((ihcdr _).mono hcons)
  | vector items ih =>
      intro s
      rw [load_vector]
      have hitems := forall₂_unfolds_loadItems_of_forall ih s
      have hnew := extends_newVector (loadItems [] items s).2 (loadItems [] items s).1
      obtain ⟨hlen, heach⟩ := Unfolds.forall₂_iff.mp hitems
      exact .vector Array.getElem?_push_size hlen fun i h k => (heach i h k).mono hnew

/-- Data loaded one after the other unfold to what they were. -/
theorem forall₂_unfolds_loadItems (ds : List Datum) (s : Store) :
    List.Forall₂ (loadItems [] ds s).2.Unfolds (loadItems [] ds s).1 ds :=
  forall₂_unfolds_loadItems_of_forall (fun d _ => unfolds_load d) s

end Store

/-! ### The length of a chain -/

/-- How many pairs the chain from a datum has. -/
def Datum.spineLength : Datum → Nat
  | .pair _ cdr => cdr.spineLength + 1
  | _ => 0

namespace Store

theorem Unfolds.exists_spine {s : Store} {v : Value} {d : Datum} (h : s.Unfolds v d) :
    ∃ items last, items.length = d.spineLength ∧ s.Spine v items last := by
  induction h with
  | number | text | symbol | boolean | nil | vector => exact ⟨[], _, rfl, .last rfl⟩
  | pair cell _ _ _ ih =>
      obtain ⟨items, last, hlen, hspine⟩ := ih
      exact ⟨_ :: items, last, by simp [Datum.spineLength, hlen], .link cell hspine⟩

/-- A chain that unfolds has at most as many pairs as the store. -/
theorem Unfolds.spineLength_le {s : Store} {v : Value} {d : Datum} (h : s.Unfolds v d) :
    d.spineLength ≤ s.cells.size := by
  obtain ⟨items, last, hlen, hspine⟩ := h.exists_spine
  rw [← hlen]
  exact hspine.length_le

end Store

end MiniScheme
