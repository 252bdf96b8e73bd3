import Mathlib.Data.List.Nodup
import Mathlib.Data.List.Perm.Subperm
import MiniScheme.Store

/-!
# `MiniScheme.Proofs.Spine`: chains of pairs and where they end

`Store.spine?` follows a chain of pairs and counts its steps against the
number of all pairs. `s.Spine v items last` says the same without counting:
the chain from `v` has the elements `items` and ends in `last`. A chain that
runs into itself has no end, because the relation is inductive.

`spine?_eq_some_iff` says that the two agree. For the count this needs that
a chain with an end passes no pair twice (`Spine.length_le`).
-/

set_option autoImplicit false

namespace MiniScheme

/-- Different places below a bound are at most as many as the bound. -/
theorem length_le_of_nodup_of_lt {refs : List Ref} {n : Nat} (hnodup : refs.Nodup)
    (hlt : ∀ r ∈ refs, r < n) : refs.length ≤ n := by
  have hsub : refs ⊆ List.range n := fun r hr => List.mem_range.mpr (hlt r hr)
  simpa using (hnodup.subperm hsub).length_le

namespace Store

/-- The chain of pairs from a value has these elements and ends in
`last`. -/
inductive Spine {F : Type} (s : Store F) : Value → List Value → Value → Prop
  | last {v : Value} (cell : s.cell? v = none) : Spine s v [] v
  | link {v last : Value} {c : Cell} {items : List Value} (cell : s.cell? v = some c)
      (rest : Spine s c.cdr items last) : Spine s v (c.car :: items) last

variable {F : Type} {s : Store F} {v last : Value} {items : List Value}

theorem cell?_eq_some {c : Cell} (h : s.cell? v = some c) :
    ∃ r, v = .pair r ∧ s.cells[r]? = some c := by
  cases v with
  | pair r => exact ⟨r, rfl, h⟩
  | _ => cases h

namespace Spine

theorem eq_last (h : s.Spine v [] last) : v = last := by
  cases h
  rfl

theorem unique {items' : List Value} {last' : Value} (h : s.Spine v items last)
    (h' : s.Spine v items' last') : items = items' ∧ last = last' := by
  induction h generalizing items' with
  | last cell =>
      cases h' with
      | last => exact ⟨rfl, rfl⟩
      | link cell' => rw [cell] at cell'; cases cell'
  | link cell _ ih =>
      cases h' with
      | last cell' => rw [cell] at cell'; cases cell'
      | link cell' rest' =>
          obtain rfl := Option.some.inj (cell.symm.trans cell')
          obtain ⟨rfl, rfl⟩ := ih rest'
          exact ⟨rfl, rfl⟩

/-- The pairs of a chain are all different: each has a longer chain from it
than those behind it. -/
theorem exists_refs (h : s.Spine v items last) :
    ∃ refs : List Ref, refs.length = items.length ∧ refs.Nodup ∧
      ∀ r ∈ refs, r < s.cells.size ∧
        ∃ tail, s.Spine (.pair r) tail last ∧ tail.length ≤ items.length := by
  induction h with
  | last => exact ⟨[], rfl, List.nodup_nil, fun r hr => absurd hr List.not_mem_nil⟩
  | @link v last c items cell rest ih =>
      obtain ⟨refs, hlen, hnodup, hrefs⟩ := ih
      obtain ⟨r, rfl, hr⟩ := cell?_eq_some cell
      have hself : s.Spine (.pair r) (c.car :: items) last := .link cell rest
      refine ⟨r :: refs, by simp [hlen], ?_, ?_⟩
      · refine List.nodup_cons.mpr ⟨fun hmem => ?_, hnodup⟩
        -- A pair has one chain only, and this one is longer than those behind it.
        obtain ⟨-, tail, htail, hle⟩ := hrefs r hmem
        rw [(htail.unique hself).1, List.length_cons] at hle
        omega
      · intro q hq
        rcases List.mem_cons.mp hq with rfl | hq
        · exact ⟨(Array.getElem?_eq_some_iff.mp hr).1, _, hself, Nat.le_refl _⟩
        · obtain ⟨hlt, tail, htail, hle⟩ := hrefs q hq
          exact ⟨hlt, tail, htail, Nat.le_succ_of_le hle⟩

/-- A chain has at most as many pairs as the store. -/
theorem length_le (h : s.Spine v items last) : items.length ≤ s.cells.size := by
  obtain ⟨refs, hlen, hnodup, hrefs⟩ := h.exists_refs
  rw [← hlen]
  exact length_le_of_nodup_of_lt hnodup fun r hr => (hrefs r hr).1

end Spine

theorem spineFrom_eq_some {fuel : Nat} : ∀ {front : List Value} {v : Value},
    s.spineFrom fuel front v = some (items, last) →
    ∃ tail, items = front.reverse ++ tail ∧ s.Spine v tail last := by
  induction fuel with
  | zero => intro front v h; cases h
  | succ fuel ih =>
      intro front v h
      unfold spineFrom at h
      cases hcell : s.cell? v with
      | none =>
          rw [hcell] at h
          cases h
          exact ⟨[], by simp, .last hcell⟩
      | some c =>
          rw [hcell] at h
          obtain ⟨tail, rfl, htail⟩ := ih h
          exact ⟨c.car :: tail, by simp, .link hcell htail⟩

theorem Spine.spineFrom_eq (h : s.Spine v items last) :
    ∀ {fuel : Nat} (front : List Value), items.length < fuel →
      s.spineFrom fuel front v = some (front.reverse ++ items, last) := by
  induction h with
  | last cell =>
      intro fuel front hfuel
      cases fuel with
      | zero => cases hfuel
      | succ fuel => simp [spineFrom, cell]
  | link cell _ ih =>
      intro fuel front hfuel
      cases fuel with
      | zero => cases hfuel
      | succ fuel =>
          rw [List.length_cons] at hfuel
          rw [spineFrom, cell]
          show s.spineFrom fuel _ _ = _
          rw [ih _ (by omega)]
          simp

/-- The elements and the end of a chain are what following it finds. -/
theorem spine?_eq_some_iff : s.spine? v = some (items, last) ↔ s.Spine v items last := by
  constructor
  · intro h
    obtain ⟨tail, rfl, htail⟩ := spineFrom_eq_some h
    exact htail
  · intro h
    have hlen := h.length_le
    exact h.spineFrom_eq [] (by omega)

end Store

end MiniScheme
