import MiniScheme.Proofs.ExternalForm
import MiniScheme.Store.Equality

/-!
# `MiniScheme.Proofs.StructuralEquality`: equal trees compare as equal

Two values that unfold to the same readable datum are equal by structure:
`equal_of_unfolds`. Sharing does not matter, and neither do the
comparisons that have begun, because a comparison met again counts as
equal. What has to be shown is that the comparison comes to an end: its
levels are those of the datum, and the chains that it walks are shorter
than its step count, by `Unfolds.spineLength_le`.
-/

set_option autoImplicit false

namespace MiniScheme.Store

open Datum (Readable)

variable {s : Store}

/-- With its parts at `depth`, the comparison of the two values ends with
"equal". -/
def ComparesEqual (s : Store) (depth : Nat) (a b : Value) (d : Datum) : Prop :=
  ∀ fuel seen, d.spineLength < fuel →
    ∃ seen', s.equalChains (s.equalFrom depth) fuel seen a b = .ok (true, seen')

/-- The chains of the whole comparison are short enough for its step
count. -/
theorem ComparesEqual.equalFrom {depth : Nat} {a b : Value} {d : Datum}
    (h : s.ComparesEqual depth a b d) (ha : s.Unfolds a d) (seen : Seen) :
    ∃ seen', s.equalFrom (depth + 1) seen a b = .ok (true, seen') := by
  have hcells : s.cells.size ≤ s.cells.size * s.cells.size := Nat.le_mul_self _
  exact h _ seen (Nat.lt_succ_of_le (Nat.le_trans ha.spineLength_le hcells))

/-- Values that are not pairs are compared as leaves. -/
theorem comparesEqual_of_leaves {depth : Nat} {a b : Value} {d : Datum}
    (ha : ∀ r, a ≠ .pair r) (h : s.equalLeaves (s.equalFrom depth) a b = .ok true) :
    s.ComparesEqual depth a b d := by
  intro fuel seen hfuel
  obtain ⟨fuel, rfl⟩ : ∃ n, fuel = n + 1 := ⟨fuel - 1, by omega⟩
  refine ⟨seen, ?_⟩
  cases a with
  | pair r => exact absurd rfl (ha r)
  | _ => simp only [equalChains, h]; rfl

/-- Pairs are compared part by part. -/
theorem comparesEqual_pair {depth : Nat} {r q : Ref} {c e : Cell} {car cdr : Datum}
    (hr : s.cells[r]? = some c) (hq : s.cells[q]? = some e)
    (hcar : ∀ seen, ∃ seen', s.equalFrom depth seen c.car e.car = .ok (true, seen'))
    (hcdr : s.ComparesEqual depth c.cdr e.cdr cdr) :
    s.ComparesEqual depth (.pair r) (.pair q) (.pair car cdr) := by
  intro fuel seen hfuel
  rw [Datum.spineLength] at hfuel
  obtain ⟨fuel, rfl⟩ : ∃ n, fuel = n + 1 := ⟨fuel - 1, by omega⟩
  by_cases hseen : (r, q) ∈ seen
  · -- A comparison that has begun counts as equal.
    exact ⟨seen, by simp [equalChains, cell?, hr, hq, hseen]⟩
  · obtain ⟨middle, hfirst⟩ := hcar (seen.insert (r, q))
    obtain ⟨after, hrest⟩ := hcdr fuel middle (by omega)
    refine ⟨after, ?_⟩
    simp only [equalChains, cell?, hr, hq, hseen, if_false, hfirst]
    exact hrest

/-- Vectors are compared element by element. -/
theorem equalItems_of_forall₂ (depth : Nat) {vs ws : List Value} {ds : List Datum}
    (hvs : List.Forall₂ s.Unfolds vs ds) :
    List.Forall₂ s.Unfolds ws ds →
      (∀ d ∈ ds, ∀ a b, s.Unfolds a d → s.Unfolds b d →
        ∃ seen', s.equalFrom depth ∅ a b = .ok (true, seen')) →
      equalItems (s.equalFrom depth) vs ws = .ok true := by
  induction hvs generalizing ws with
  | nil => intro hws _; cases hws; rfl
  | @cons v d vs ds hv _ ih =>
      intro hws hall
      cases hws with
      | @cons w _ ws _ hw hws =>
          have hrest := ih hws fun e he => hall e (List.mem_cons_of_mem d he)
          obtain ⟨seen', hfirst⟩ := hall d List.mem_cons_self v w hv hw
          rw [equalItems]
          split
          · exact hrest
          · rw [hfirst]
            exact hrest

/-- Two values that unfold to the same readable datum compare as equal,
with its parts one level further in. -/
theorem comparesEqual_of_unfolds {d : Datum} (hd : Readable d) :
    ∀ {a b : Value}, s.Unfolds a d → s.Unfolds b d →
      ∀ depth, d.nesting .alone ≤ depth + 1 → s.ComparesEqual depth a b d := by
  induction hd with
  | @int n short =>
      rintro _ _ ⟨⟩ ⟨⟩ depth -
      exact comparesEqual_of_leaves (by simp) (by simp [equalLeaves, Value.numeric?, Number.equal,
        Number.compare?])
  | text t =>
      rintro _ _ ⟨⟩ ⟨⟩ depth -
      exact comparesEqual_of_leaves (by simp) (by simp [equalLeaves])
  | symbol h =>
      rintro _ _ ⟨⟩ ⟨⟩ depth -
      exact comparesEqual_of_leaves (by simp) (by simp [equalLeaves, Value.numeric?])
  | boolean b =>
      rintro _ _ ⟨⟩ ⟨⟩ depth -
      exact comparesEqual_of_leaves (by simp) (by simp [equalLeaves, Value.numeric?])
  | nil =>
      rintro _ _ ⟨⟩ ⟨⟩ depth -
      exact comparesEqual_of_leaves (by simp) (by simp [equalLeaves, Value.numeric?])
  | @pair car cdr _ _ ihcar ihcdr =>
      rintro _ _ (_ | _ | _ | _ | _ | ⟨hr, hcar, hcdr⟩ | _)
        (_ | _ | _ | _ | _ | ⟨hq, hcar', hcdr'⟩ | _) depth hdepth
      rw [Datum.nesting] at hdepth
      -- The rest of the chain is compared on the same level.
      have hcdrLevels := cdr.nesting_alone_le
      refine comparesEqual_pair hr hq (fun seen => ?_) (ihcdr hcdr hcdr' depth (by omega))
      obtain ⟨depth, rfl⟩ : ∃ n, depth = n + 1 :=
        ⟨depth - 1, by have := car.nesting_alone_pos; omega⟩
      exact (ihcar hcar hcar' depth (by omega)).equalFrom hcar seen
  | @vector ds _ ih =>
      rintro _ _ (_ | _ | _ | _ | _ | _ | ⟨hr, hlen, heach⟩)
        (_ | _ | _ | _ | _ | _ | ⟨hq, hlen', heach'⟩) depth hdepth
      rw [Datum.nesting] at hdepth
      have hitems := equalItems_of_forall₂ depth (Unfolds.forall₂_iff.mpr ⟨hlen, heach⟩)
        (Unfolds.forall₂_iff.mpr ⟨hlen', heach'⟩) fun d hmem a b ha hb => by
          have hlevels := Datum.nesting_le_nestingItems hmem
          obtain ⟨depth, rfl⟩ : ∃ n, depth = n + 1 :=
            ⟨depth - 1, by have := d.nesting_alone_pos; omega⟩
          exact (ih d hmem ha hb depth (by omega)).equalFrom ha ∅
      refine comparesEqual_of_leaves (by simp) ?_
      simp only [equalLeaves, hr, hq, Option.getD_some, hlen, hlen', if_true, hitems]

/-- Two values that unfold to the same readable datum are equal. -/
theorem equal_of_unfolds {a b : Value} {d : Datum} {depth : Nat} (hd : Readable d)
    (ha : s.Unfolds a d) (hb : s.Unfolds b d) (hdepth : d.nesting .alone ≤ depth) :
    s.equal depth a b = .ok true := by
  obtain ⟨depth, rfl⟩ : ∃ n, depth = n + 1 := ⟨depth - 1, by have := d.nesting_alone_pos; omega⟩
  obtain ⟨seen', h⟩ := (comparesEqual_of_unfolds hd ha hb depth hdepth).equalFrom ha ∅
  rw [equal, h]
  rfl

end MiniScheme.Store
