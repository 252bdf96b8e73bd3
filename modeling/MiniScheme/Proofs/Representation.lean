import MiniScheme.Operation.Run
import MiniScheme.Proofs.References
import MiniScheme.Proofs.WellFormedHeaps

/-!
# `MiniScheme.Proofs.Representation`: a store that represents a heap

In a heap each atom has an address. In a store it is a value, and two atoms are the
same if they are equal. `h.Represents s ρ` says that the store `s` keeps what the
heap `h` keeps, when the object at `a` is written as the value `ρ a`. Then programs
cannot tell the two apart: all tests answer the same (`run_isNull`, `run_isSymbol`,
`run_same` and `isTrue_eq`), and a write to a pair is a write to the pair that
represents it (`Represents.setCar` and `Represents.setCdr`).

Only numbers may be represented by a value together, because no test tells two
numbers of one value apart. The store may hold more than the heap.
-/

set_option autoImplicit false

namespace MiniScheme

/-- The value represents an object that is made of this. -/
inductive Store.Stands (s : Store) (ρ : Address → Value) : Content → Value → Prop
  | number (n : Number) : Stands s ρ (.number n) (.number n)
  | text (tag : Nat) (x : String) : Stands s ρ (.text x) (.text tag x)
  | symbol (name : String) : Stands s ρ (.symbol name) (.symbol name)
  | boolean (b : Bool) : Stands s ρ (.boolean b) (.boolean b)
  | emptyList : Stands s ρ .emptyList .nil
  | emptySequence : Stands s ρ .emptySequence .emptySequence
  | pair {car cdr : Address} {r : Ref} (cell : s.cells[r]? = some ⟨ρ car, ρ cdr⟩) :
      Stands s ρ (.pair (some (car, cdr))) (.pair r)
  | vector {items : List Address} {r : Ref} (contents : s.vectors[r]? = some (items.map ρ)) :
      Stands s ρ (.vector items) (.vector r)

namespace Store.Stands

variable {s : Store} {ρ : Address → Value} {o : Content} {v : Value}

/-- Atoms are represented by atoms. -/
theorem object?_eq_none_iff (hs : s.Stands ρ o v) : v.object? = none ↔ o.isCompound = false := by
  cases hs <;> simp [Value.object?, Content.isCompound]

theorem eq_nil_iff (hs : s.Stands ρ o v) : v = .nil ↔ o = .emptyList := by
  cases hs <;> simp

theorem eq_boolean_iff (hs : s.Stands ρ o v) (b : Bool) : v = .boolean b ↔ o = .boolean b := by
  cases hs <;> simp

theorem eq_number_iff (hs : s.Stands ρ o v) (n : Number) : v = .number n ↔ o = .number n := by
  cases hs <;> simp

theorem eq_emptySequence_iff (hs : s.Stands ρ o v) : v = .emptySequence ↔ o = .emptySequence := by
  cases hs <;> simp

theorem eq_symbol_iff (hs : s.Stands ρ o v) (name : String) :
    v = .symbol name ↔ o = .symbol name := by
  cases hs <;> simp

theorem symbolic_iff (hs : s.Stands ρ o v) :
    Operation.symbolic v = true ↔ ∃ name, o = .symbol name := by
  cases hs <;> simp [Operation.symbolic]

end Store.Stands

namespace Heap

variable {h : Heap} {s t : Store} {ρ : Address → Value} {a b : Address} {o o' : Content}

/-- The store keeps the objects of the heap, and numbers aside, each one is a value of
its own. -/
structure Represents (h : Heap) (s : Store) (ρ : Address → Value) : Prop where
  stands : ∀ {a : Address} {o : Content}, h.objects[a]? = some o → s.Stands ρ o (ρ a)
  inj : ∀ {a b : Address} {o o' : Content}, h.objects[a]? = some o → h.objects[b]? = some o' →
    ρ a = ρ b → a = b ∨ ∃ n, o = .number n

namespace Represents

/-! ### References -/

/-- The objects of the heap are there in the store. -/
theorem has (hr : h.Represents s ρ) (ha : h.objects[a]? = some o) {x : Object}
    (hx : (ρ a).object? = some x) : s.Has x := by
  have hstands := hr.stands ha
  generalize ρ a = v at hstands hx
  cases hstands with
  | pair cell =>
      cases hx
      exact (Array.getElem?_eq_some_iff.mp cell).1
  | vector contents =>
      cases hx
      exact (Array.getElem?_eq_some_iff.mp contents).1
  | _ => cases hx

/-- What can be reached in the store from an object of the heap is an object of the
heap. -/
theorem exists_of_reachable (hr : h.Represents s ρ) (hwf : h.WellFormed)
    (ha : h.objects[a]? = some o) {x : Object} (hx : s.Reachable (ρ a).object?.toList x) :
    ∃ b o, h.objects[b]? = some o ∧ (ρ b).object? = some x := by
  have hthere {o : Content} {b p : Address} (hb : h.objects[b]? = some o) (hp : p ∈ o.parts) :
      ∃ o', h.objects[p]? = some o' := ⟨_, Array.getElem?_eq_getElem (hwf.parts hb p hp)⟩
  induction hx with
  | root mem => exact ⟨a, o, ha, by simpa using mem⟩
  | part _ mem ih =>
      obtain ⟨b, o, hb, hobject⟩ := ih
      have hstands := hr.stands hb
      generalize ρ b = v at hstands hobject
      cases hstands with
      | pair cell =>
          cases hobject
          rcases (Store.mem_parts_cell cell).mp mem with hcar | hcdr
          · obtain ⟨o', ho'⟩ := hthere hb List.mem_cons_self
            exact ⟨_, o', ho', hcar⟩
          · obtain ⟨o', ho'⟩ := hthere hb (List.mem_cons_of_mem _ List.mem_cons_self)
            exact ⟨_, o', ho', hcdr⟩
      | vector contents =>
          cases hobject
          obtain ⟨w, hw, hobject⟩ := (Store.mem_parts_vector contents).mp mem
          obtain ⟨p, hp, rfl⟩ := List.mem_map.mp hw
          obtain ⟨o', ho'⟩ := hthere hb hp
          exact ⟨p, o', ho', hobject⟩
      | _ => cases hobject

/-! ### Tests -/

theorem run_isNull (hr : h.Represents s ρ) (hwf : h.WellFormed) (ha : h.objects[a]? = some o)
    (depth : Nat) :
    (Operation.isNull.run depth [ρ a] : Eval Value) = pure (.boolean (isNull a)) := by
  have hnull : decide (ρ a = .nil) = isNull a := by
    rw [Bool.eq_iff_iff, decide_eq_true_iff, (hr.stands ha).eq_nil_iff, hwf.isNull_iff, ha,
      Option.some_inj]
  rw [← hnull]
  rfl

theorem run_isSymbol (hr : h.Represents s ρ) (ha : h.objects[a]? = some o) (depth : Nat) :
    (Operation.isSymbol.run depth [ρ a] : Eval Value) = pure (.boolean (h.isSymbol a)) := by
  have hsymbol : Operation.symbolic (ρ a) = h.isSymbol a := by
    rw [Bool.eq_iff_iff, (hr.stands ha).symbolic_iff, isSymbol_iff, ha]
    simp only [Option.some_inj]
  rw [← hsymbol]
  rfl

theorem isTrue_eq (hr : h.Represents s ρ) (hwf : h.WellFormed) (ha : h.objects[a]? = some o) :
    (ρ a).isTrue = isTrue a := by
  rw [Bool.eq_iff_iff, Value.isTrue, decide_eq_true_iff, ne_eq, (hr.stands ha).eq_boolean_iff,
    hwf.isTrue_iff, ha, ne_eq, Option.some_inj]

theorem run_same (hr : h.Represents s ρ) (ha : h.objects[a]? = some o)
    (hb : h.objects[b]? = some o') (depth : Nat) :
    (Operation.same.run depth [ρ a, ρ b] : Eval Value) = pure (.boolean (h.same a b)) := by
  have hsame : Operation.sameObject (ρ a) (ρ b) = h.same a b := by
    by_cases hnumbers : ∃ m n, o = .number m ∧ o' = .number n
    · obtain ⟨m, n, rfl, rfl⟩ := hnumbers
      rw [((hr.stands ha).eq_number_iff m).mpr rfl, ((hr.stands hb).eq_number_iff n).mpr rfl, same,
        ha, hb]
      rfl
    · rw [same_eq_decide (by simpa [ha, hb] using hnumbers), Operation.sameObject]
      · refine decide_eq_decide.mpr ⟨fun heq => ?_, congrArg ρ⟩
        -- Two addresses of one value would hold a number each.
        refine (hr.inj ha hb heq).resolve_right fun hnumber => hnumbers ?_
        obtain ⟨n, hn⟩ := hnumber
        refine ⟨n, n, hn, ((hr.stands hb).eq_number_iff n).mp ?_⟩
        rw [← heq, (hr.stands ha).eq_number_iff, hn]
      · intro m n hm hn
        exact hnumbers ⟨m, n, ((hr.stands ha).eq_number_iff m).mp hm,
          ((hr.stands hb).eq_number_iff n).mp hn⟩
  rw [← hsame]
  rfl

/-! ### Writes -/

variable {x y x' y' : Address} {r : Ref}

/-- A change to one pair, in the heap and in the store. -/
theorem modify (hr : h.Represents s ρ) (ha : h.objects[a]? = some (.pair (some (x, y))))
    (hpair : ρ a = .pair r) {f : Content → Content} {g : Cell → Cell}
    (hf : f (.pair (some (x, y))) = .pair (some (x', y'))) (hg : g ⟨ρ x, ρ y⟩ = ⟨ρ x', ρ y'⟩) :
    Represents { h with objects := h.objects.modify a f }
      { s with cells := s.cells.modify r g } ρ where
  stands {c o} hc := by
    rw [Array.getElem?_modify] at hc
    split at hc
    · rename_i heq
      subst heq
      rw [ha, Option.map_some, hf] at hc
      cases hc
      have hstands := hr.stands ha
      rw [hpair] at hstands ⊢
      cases hstands with
      | pair cell => exact .pair (by simp [Array.getElem?_modify, cell, hg])
    · rename_i hne
      have hstands := hr.stands hc
      generalize hv : ρ c = v at hstands
      cases hstands with
      | pair cell =>
          -- Another pair of the heap is another cell of the store.
          rename_i q
          have hq : r ≠ q := by
            rintro rfl
            exact hne ((hr.inj ha hc (hpair.trans hv.symm)).resolve_right nofun)
          exact .pair (by simpa [Array.getElem?_modify, hq] using cell)
      | vector contents => exact .vector contents
      | _ => constructor
  inj {c d o o'} hc hd heq := by
    have hbefore {e : Address} {o : Content} (he : (h.objects.modify a f)[e]? = some o) :
        ∃ o₀, h.objects[e]? = some o₀ ∧ ((∃ n, o₀ = .number n) → ∃ n, o = .number n) := by
      rw [Array.getElem?_modify] at he
      split at he
      · rename_i hae
        subst hae
        exact ⟨_, ha, nofun⟩
      · exact ⟨o, he, id⟩
    obtain ⟨o₀, hc₀, hnumber⟩ := hbefore hc
    obtain ⟨o₀', hd₀, -⟩ := hbefore hd
    exact (hr.inj hc₀ hd₀ heq).imp_right hnumber

theorem setCar (hr : h.Represents s ρ) (ha : h.objects[a]? = some (.pair (some (x, y))))
    (hpair : ρ a = .pair r) (v : Address) : (h.setCar a v).Represents (s.setCar r (ρ v)) ρ :=
  hr.modify ha hpair rfl rfl

theorem setCdr (hr : h.Represents s ρ) (ha : h.objects[a]? = some (.pair (some (x, y))))
    (hpair : ρ a = .pair r) (v : Address) : (h.setCdr a v).Represents (s.setCdr r (ρ v)) ρ :=
  hr.modify ha hpair rfl rfl

end Represents

end Heap

end MiniScheme
