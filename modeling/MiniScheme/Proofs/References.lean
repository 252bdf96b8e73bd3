import MiniScheme.Proofs.Actions
import MiniScheme.Store.Copy

/-!
# `MiniScheme.Proofs.References`: objects and what they refer to

The objects of a store refer to each other: pairs through their fields,
vectors through their elements, closures through parameters, body and
frame, frames through the values of their names and the frame around them.
`Store.parts` lists these references, and `s.Reachable roots o` says that
the object `o` can be reached along them from one of `roots`.

Every operation on a store makes one object or changes one, a pair or a
frame. `Store.Adds` and `Store.Changes` say so for two stores, and there
is one lemma for each operation: what it does, and what the object refers
to afterwards.
-/

set_option autoImplicit false

namespace MiniScheme

/-- The contents of pairs and frames can change. -/
def Object.IsMutable : Object → Prop
  | .cell _ | .frame _ => True
  | .vector _ | .closure _ | .primitive _ => False

namespace Store

variable {s t : Store} {o o' : Object}

/-! ### References -/

theorem mem_parts_cell {r : Ref} {c : Cell} (h : s.cells[r]? = some c) :
    o ∈ s.parts (.cell r) ↔ c.car.object? = some o ∨ c.cdr.object? = some o := by
  unfold parts
  simp [h]

theorem mem_parts_vector {r : Ref} {items : List Value} (h : s.vectors[r]? = some items) :
    o ∈ s.parts (.vector r) ↔ ∃ v ∈ items, v.object? = some o := by
  unfold parts
  simp [h]

theorem mem_parts_closure {r : Ref} {k : Closure} (h : s.closures[r]? = some k) :
    o ∈ s.parts (.closure r) ↔
      (k.formals.object? = some o ∨ k.body.object? = some o) ∨ o = .frame k.frame := by
  unfold parts
  simp [h]

theorem mem_parts_frame {r : Ref} {f : Frame} (h : s.frames[r]? = some f) :
    o ∈ s.parts (.frame r) ↔
      (∃ b ∈ f.bindings, b.2.object? = some o) ∨ ∃ q, f.outer = some q ∧ .frame q = o := by
  unfold parts
  simp [h]

/-- The object is there. -/
def Has (s : Store) : Object → Prop
  | .cell r => r < s.cells.size
  | .vector r => r < s.vectors.size
  | .closure r => r < s.closures.size
  | .frame r => r < s.frames.size
  | .primitive r => r < s.primitives.size

theorem parts_of_not_has (h : ¬ s.Has o) : s.parts o = [] := by
  cases o with
  | primitive => rfl
  | cell | vector | closure | frame =>
      simp only [Has, Nat.not_lt] at h
      unfold parts
      simp [Array.getElem?_eq_none h]

/-- The object has the same contents in both stores. -/
def Same (s t : Store) : Object → Prop
  | .cell r => t.cells[r]? = s.cells[r]?
  | .vector r => t.vectors[r]? = s.vectors[r]?
  | .closure r => t.closures[r]? = s.closures[r]?
  | .frame r => t.frames[r]? = s.frames[r]?
  | .primitive r => t.primitives[r]? = s.primitives[r]?

theorem Same.refl (s : Store) (o : Object) : s.Same s o := by cases o <;> rfl

theorem Same.trans {u : Store} (h : s.Same t o) (k : t.Same u o) : s.Same u o := by
  cases o <;> exact Eq.trans k h

theorem Same.parts_eq (h : s.Same t o) : t.parts o = s.parts o := by
  cases o with
  | primitive => rfl
  | cell | vector | closure | frame =>
      simp only [Same] at h
      unfold parts
      simp only [h]

/-- The object can be reached from one of the roots. -/
inductive Reachable (s : Store) (roots : List Object) : Object → Prop
  | root {o : Object} (mem : o ∈ roots) : Reachable s roots o
  | part {o o' : Object} (before : Reachable s roots o) (mem : o' ∈ s.parts o) :
      Reachable s roots o'

/-- A store that agrees on all that can be reached has the same in reach. -/
theorem reachable_iff_of_same {roots : List Object}
    (hsame : ∀ o, s.Reachable roots o → s.Same t o) :
    t.Reachable roots o ↔ s.Reachable roots o := by
  constructor
  · intro h
    induction h with
    | root mem => exact .root mem
    | part _ mem ih => exact .part ih ((hsame _ ih).parts_eq ▸ mem)
  · intro h
    induction h with
    | root mem => exact .root mem
    | part before mem ih => exact .part ih ((hsame _ before).parts_eq ▸ mem)

/-! ### New and changed objects -/

/-- From the first store to the second, at most this object has changed. -/
structure Changes (s t : Store) (o : Object) : Prop where
  others : ∀ o', o' ≠ o → s.Same t o'
  has : ∀ o', s.Has o' → t.Has o'

/-- The second store has this object more, and else is the first one. -/
structure Adds (s t : Store) (o : Object) : Prop extends Changes s t o where
  fresh : ¬ s.Has o
  made : t.Has o

/-- What was there before is as it was. -/
theorem Adds.kept (h : s.Adds t o) (ho' : s.Has o') : s.Same t o' :=
  h.others o' fun heq => h.fresh (heq ▸ ho')

theorem getElem?_push_of_ne {α : Type} {xs : Array α} {r : Nat} (x : α) (h : r ≠ xs.size) :
    (xs.push x)[r]? = xs[r]? := by
  rw [Array.getElem?_push, if_neg h]

theorem lt_size_push {α : Type} {xs : Array α} {r : Nat} (x : α) (h : r < xs.size) :
    r < (xs.push x).size := by
  rw [Array.size_push]
  omega

theorem size_lt_size_push {α : Type} (xs : Array α) (x : α) : xs.size < (xs.push x).size := by
  rw [Array.size_push]
  omega

theorem adds_cons (s : Store) (a d : Value) :
    s.Adds (s.cons a d).2 (.cell s.cells.size) := by
  refine ⟨⟨fun o hne => ?_, fun o ho => ?_⟩, Nat.lt_irrefl _, size_lt_size_push _ _⟩
  · cases o with
    | cell q => exact getElem?_push_of_ne _ fun h => hne (by rw [h])
    | _ => rfl
  · cases o with
    | cell q => exact lt_size_push _ ho
    | _ => exact ho

theorem adds_newVector (s : Store) (items : List Value) :
    s.Adds (s.newVector items).2 (.vector s.vectors.size) := by
  refine ⟨⟨fun o hne => ?_, fun o ho => ?_⟩, Nat.lt_irrefl _, size_lt_size_push _ _⟩
  · cases o with
    | vector q => exact getElem?_push_of_ne _ fun h => hne (by rw [h])
    | _ => rfl
  · cases o with
    | vector q => exact lt_size_push _ ho
    | _ => exact ho

theorem adds_newClosure (s : Store) (k : Closure) :
    s.Adds (s.newClosure k).2 (.closure s.closures.size) := by
  refine ⟨⟨fun o hne => ?_, fun o ho => ?_⟩, Nat.lt_irrefl _, size_lt_size_push _ _⟩
  · cases o with
    | closure q => exact getElem?_push_of_ne _ fun h => hne (by rw [h])
    | _ => rfl
  · cases o with
    | closure q => exact lt_size_push _ ho
    | _ => exact ho

theorem adds_newFrame (s : Store) (f : Frame) :
    s.Adds (s.newFrame f).2 (.frame s.frames.size) := by
  refine ⟨⟨fun o hne => ?_, fun o ho => ?_⟩, Nat.lt_irrefl _, size_lt_size_push _ _⟩
  · cases o with
    | frame q => exact getElem?_push_of_ne _ fun h => hne (by rw [h])
    | _ => rfl
  · cases o with
    | frame q => exact lt_size_push _ ho
    | _ => exact ho

theorem changes_modifyCell (s : Store) (r : Ref) (f : Cell → Cell) :
    s.Changes { s with cells := s.cells.modify r f } (.cell r) := by
  refine ⟨fun o hne => ?_, fun o ho => ?_⟩
  · cases o with
    | cell q =>
        have hq : r ≠ q := fun h => hne (by rw [h])
        simp [Same, Array.getElem?_modify, hq]
    | _ => rfl
  · cases o with
    | cell q => simpa [Has] using ho
    | _ => exact ho

theorem changes_bind (s : Store) (r : Ref) (name : String) (v : Value) :
    s.Changes (s.bind r name v) (.frame r) := by
  refine ⟨fun o hne => ?_, fun o ho => ?_⟩
  · cases o with
    | frame q =>
        have hq : r ≠ q := fun h => hne (by rw [h])
        simp [Same, bind, Array.getElem?_modify, hq]
    | _ => rfl
  · cases o with
    | frame q => simpa [Has, bind] using ho
    | _ => exact ho

/-- Strings are no objects; only their number changes. -/
theorem same_newString (s : Store) (text : String) (o : Object) :
    s.Same (s.newString text).2 o := by
  cases o <;> rfl

theorem has_newString (text : String) (h : s.Has o) : (s.newString text).2.Has o := by
  cases o <;> exact h

/-- A pair that is changed refers to what its new fields refer to. -/
theorem mem_parts_modifyCell {r : Ref} {f : Cell → Cell}
    (h : o ∈ Store.parts { s with cells := s.cells.modify r f } (.cell r)) :
    ∃ c, s.cells[r]? = some c ∧ ((f c).car.object? = some o ∨ (f c).cdr.object? = some o) := by
  cases hc : s.cells[r]? with
  | none => simp [parts, Array.getElem?_modify, hc] at h
  | some c =>
      have hcell : (s.cells.modify r f)[r]? = some (f c) := by
        simp [Array.getElem?_modify, hc]
      exact ⟨c, rfl, (mem_parts_cell hcell).mp h⟩

theorem mem_parts_setCar {r : Ref} {v : Value} (h : o ∈ (s.setCar r v).parts (.cell r)) :
    v.object? = some o ∨ o ∈ s.parts (.cell r) := by
  obtain ⟨c, hc, hv | hcdr⟩ := mem_parts_modifyCell h
  · exact .inl hv
  · exact .inr ((mem_parts_cell hc).mpr (.inr hcdr))

theorem mem_parts_setCdr {r : Ref} {v : Value} (h : o ∈ (s.setCdr r v).parts (.cell r)) :
    v.object? = some o ∨ o ∈ s.parts (.cell r) := by
  obtain ⟨c, hc, hcar | hv⟩ := mem_parts_modifyCell h
  · exact .inr ((mem_parts_cell hc).mpr (.inl hcar))
  · exact .inl hv

theorem mem_parts_bind {r : Ref} {name : String} {v : Value}
    (h : o ∈ (s.bind r name v).parts (.frame r)) :
    v.object? = some o ∨ o ∈ s.parts (.frame r) := by
  cases hf : s.frames[r]? with
  | none => simp [parts, bind, Array.getElem?_modify, hf] at h
  | some f =>
      have hbound : (s.bind r name v).frames[r]? = some (f.bind name v) := by
        simp [bind, Array.getElem?_modify, hf]
      rcases (mem_parts_frame hbound).mp h with ⟨b, hb, ho⟩ | houter
      · rcases mem_insert hb with rfl | hb
        · exact .inl ho
        · exact .inr ((mem_parts_frame hf).mpr (.inl ⟨b, hb, ho⟩))
      · exact .inr ((mem_parts_frame hf).mpr (.inr houter))

end Store

end MiniScheme
