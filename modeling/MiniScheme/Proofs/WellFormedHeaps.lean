import MiniScheme.Heap

/-!
# `MiniScheme.Proofs.WellFormedHeaps`: one object for each name and each constant

Programs test some objects by their addresses. This answers rightly as long as
there is no second empty list, no second `#f` and no second symbol of a name.
`Heap.WellFormed` says that, together with what keeps references alive: all parts
of an object are there, and the fields of all pairs are set.

The initial heap is well-formed (`wellFormed_initial`), and so is what follows
from a well-formed heap by `intern`, by a new object of a class that may have many
(`WellFormed.add`), and by a write to a pair. A heap that has grown is covered by
one lemma, `WellFormed.grown`, which asks of new objects only.
-/

set_option autoImplicit false

namespace MiniScheme

namespace Content

/-- The address that such an object has to have. -/
def home? : Content → Option Address
  | .emptyList => some Address.emptyList
  | .boolean b => some (Address.boolean b)
  | .emptySequence => some Address.emptySequence
  | _ => none

/-- There may be many such objects. -/
def IsOrdinary : Content → Prop
  | .number _ | .text _ | .pair (some _) | .vector _ => True
  | _ => False

variable {o o' : Content} {v p : Address}

theorem not_isOrdinary_of_home?_eq_some (ho : o.home? = some v) : ¬o.IsOrdinary := by
  cases o <;> first | exact id | cases ho

/-- A write to a pair makes no object that was not one before. -/
theorem withCar_eq_iff (ho' : ¬o'.IsOrdinary) : o.withCar v = o' ↔ o = o' := by
  fun_cases withCar v o with
  | case1 car cdr =>
      constructor <;> rintro rfl <;> exact absurd trivial ho'
  | case2 => rfl

theorem withCdr_eq_iff (ho' : ¬o'.IsOrdinary) : o.withCdr v = o' ↔ o = o' := by
  fun_cases withCdr v o with
  | case1 car cdr =>
      constructor <;> rintro rfl <;> exact absurd trivial ho'
  | case2 => rfl

theorem mem_parts_withCar (hp : p ∈ (o.withCar v).parts) : p ∈ o.parts ∨ p = v := by
  fun_cases withCar v o with
  | case1 car cdr =>
      have hnew : p = v ∨ p = cdr := by simpa [withCar, parts] using hp
      exact hnew.symm.imp_left fun h => by simp [parts, h]
  | case2 => exact .inl (by simpa [withCar] using hp)

theorem mem_parts_withCdr (hp : p ∈ (o.withCdr v).parts) : p ∈ o.parts ∨ p = v := by
  fun_cases withCdr v o with
  | case1 car cdr =>
      have hnew : p = car ∨ p = v := by simpa [withCdr, parts] using hp
      exact hnew.imp_left fun h => by simp [parts, h]
  | case2 => exact .inl (by simpa [withCdr] using hp)

end Content

namespace Heap

variable {h h' : Heap} {a b : Address} {o o' : Content} {name : String}

/-- Each constant and each symbol is there once, all parts of objects are there,
and the fields of pairs are set. -/
structure WellFormed (h : Heap) : Prop where
  parts : ∀ {a : Address} {o : Content}, h.objects[a]? = some o → ∀ p ∈ o.parts, p < h.objects.size
  filled : ∀ {a : Address}, h.objects[a]? ≠ some (Content.pair none)
  homes : ∀ {o : Content} {b : Address}, o.home? = some b → ∀ a : Address,
    h.objects[a]? = some o ↔ a = b
  symbols : ∀ {name : String} {a : Address},
    h.objects[a]? = some (Content.symbol name) ↔ h.symbols.lookup name = some a

theorem lt_of_getElem? (ha : h.objects[a]? = some o) : a < h.objects.size :=
  (Array.getElem?_eq_some_iff.mp ha).1

/-! ### Tests -/

theorem WellFormed.isNull_iff (hwf : h.WellFormed) :
    isNull a = true ↔ h.objects[a]? = some .emptyList := by
  rw [isNull, decide_eq_true_iff, hwf.homes rfl]

theorem WellFormed.isTrue_iff (hwf : h.WellFormed) :
    isTrue a = true ↔ h.objects[a]? ≠ some (.boolean false) := by
  rw [isTrue, decide_eq_true_iff, ne_eq, ne_eq, hwf.homes (o := .boolean false) rfl]

theorem isSymbol_iff :
    h.isSymbol a = true ↔ ∃ name, h.objects[a]? = some (Content.symbol name) := by
  rw [isSymbol]
  split
  · rename_i name ha
    exact ⟨fun _ => ⟨name, ha⟩, fun _ => rfl⟩
  · rename_i hne
    exact ⟨nofun, fun ⟨name, ha⟩ => absurd ha (hne name)⟩

/-- Numbers aside, objects are the same if their addresses are. -/
theorem same_eq_decide (hne : ¬∃ m n, h.objects[a]? = some (Content.number m) ∧
    h.objects[b]? = some (Content.number n)) : h.same a b = decide (a = b) := by
  rw [same]
  split
  · rename_i m n ha hb
    exact absurd ⟨m, n, ha, hb⟩ hne
  · rfl

/-! ### Symbols -/

/-- A name has one symbol. -/
theorem intern_intern (h : Heap) (name : String) :
    (h.intern name).2.intern name = h.intern name := by
  cases hfound : h.symbols.lookup name with
  | some a => simp [intern, hfound]
  | none => simp [intern, hfound]

/-- The symbol of a symbol's name is this symbol, and nothing is made. -/
theorem WellFormed.intern_eq (hwf : h.WellFormed)
    (ha : h.objects[a]? = some (Content.symbol name)) : h.intern name = (a, h) := by
  rw [intern, hwf.symbols.mp ha]

/-- What is made is a symbol of the name. -/
theorem WellFormed.getElem?_intern (hwf : h.WellFormed) (name : String) :
    (h.intern name).2.objects[(h.intern name).1]? = some (.symbol name) := by
  cases hfound : h.symbols.lookup name with
  | some a => simpa [intern, hfound] using hwf.symbols.mpr hfound
  | none => simp [intern, hfound]

/-! ### What keeps a heap well-formed -/

theorem wellFormed_initial : initial.WellFormed where
  parts {a o} ha p hp := by
    rcases a with _ | _ | _ | _ | a <;> cases ha <;> cases hp
  filled {a} := by
    rcases a with _ | _ | _ | _ | a <;> simp [initial]
  homes {o b} hb a := by
    cases o <;> cases hb
    case emptyList =>
      rcases a with _ | _ | _ | _ | a <;> simp [initial, Address.emptyList]
    case emptySequence =>
      rcases a with _ | _ | _ | _ | a <;> simp [initial, Address.emptySequence]
    case boolean value =>
      cases value <;>
        rcases a with _ | _ | _ | _ | a <;> simp [initial, Address.boolean]
  symbols {name a} := by
    rcases a with _ | _ | _ | _ | a <;> simp [initial]

/-- New objects of which there may be many do not matter, if their parts are
there. -/
theorem WellFormed.grown (hwf : h.WellFormed)
    (hold : ∀ a < h.objects.size, h'.objects[a]? = h.objects[a]?)
    (hsymbols : h'.symbols = h.symbols)
    (hnew : ∀ a o, h.objects.size ≤ a → h'.objects[a]? = some o →
      o.IsOrdinary ∧ ∀ p ∈ o.parts, p < h'.objects.size) : h'.WellFormed := by
  have hkept {a : Address} {o : Content} (ha : h.objects[a]? = some o) : h'.objects[a]? = some o :=
    (hold a (lt_of_getElem? ha)).trans ha
  have hsplit {a : Address} {o : Content} (ha : h'.objects[a]? = some o) :
      h.objects[a]? = some o ∨ o.IsOrdinary ∧ ∀ p ∈ o.parts, p < h'.objects.size := by
    rcases Nat.lt_or_ge a h.objects.size with hlt | hge
    · exact .inl ((hold a hlt).symm.trans ha)
    · exact .inr (hnew a o hge ha)
  -- New objects are ordinary, so all others are where they were.
  have hsame {a : Address} {o : Content} (ho : ¬o.IsOrdinary) :
      h'.objects[a]? = some o ↔ h.objects[a]? = some o :=
    ⟨fun ha => (hsplit ha).resolve_right fun hordinary => ho hordinary.1, hkept⟩
  exact {
    parts := fun {a o} ha p hp => by
      rcases hsplit ha with ha | ⟨-, hparts⟩
      · exact lt_of_getElem? (hkept (Array.getElem?_eq_getElem (hwf.parts ha p hp)))
      · exact hparts p hp
    filled := fun ha => hwf.filled ((hsame id).mp ha)
    homes := fun {o b} hb a => by
      rw [hsame (Content.not_isOrdinary_of_home?_eq_some hb), hwf.homes hb]
    symbols := fun {name a} => by
      rw [hsame id, hsymbols, hwf.symbols] }

theorem getElem?_push_eq_some_iff {xs : Array Content} :
    (xs.push o)[a]? = some o' ↔ xs[a]? = some o' ∨ a = xs.size ∧ o' = o := by
  rw [Array.getElem?_push]
  split
  · rename_i hsize
    subst hsize
    simp [eq_comm]
  · rename_i hsize
    simp [hsize]

theorem WellFormed.add (hwf : h.WellFormed) (ho : o.IsOrdinary)
    (hparts : ∀ p ∈ o.parts, p < h.objects.size) : (h.add o).2.WellFormed := by
  refine hwf.grown (fun a ha => ?_) rfl fun a o' hge ha => ?_
  · exact (Array.getElem?_push_lt ha).trans (Array.getElem?_eq_getElem ha).symm
  · rcases getElem?_push_eq_some_iff.mp ha with hold | ⟨-, rfl⟩
    · exact absurd (lt_of_getElem? hold) (Nat.not_lt.mpr hge)
    · refine ⟨ho, fun p hp => ?_⟩
      rw [Heap.add, Array.size_push]
      exact Nat.lt_succ_of_lt (hparts p hp)

theorem WellFormed.intern (hwf : h.WellFormed) (name : String) : (h.intern name).2.WellFormed := by
  cases hfound : h.symbols.lookup name with
  | some a =>
      rw [Heap.intern, hfound]
      exact hwf
  | none =>
      rw [Heap.intern, hfound]
      exact {
        parts := fun {a o} ha p hp => by
          rw [Array.size_push]
          rcases getElem?_push_eq_some_iff.mp ha with ha | ⟨-, rfl⟩
          · exact Nat.lt_succ_of_lt (hwf.parts ha p hp)
          · cases hp
        filled := fun {a} => by
          simpa [getElem?_push_eq_some_iff] using hwf.filled
        homes := fun {o b} hb a => by
          have ho : o ≠ .symbol name := by
            rintro rfl
            cases hb
          simp [getElem?_push_eq_some_iff, ho, hwf.homes hb]
        symbols := fun {other a} => by
          rw [getElem?_push_eq_some_iff, List.lookup_cons, hwf.symbols]
          by_cases hname : other = name
          · subst hname
            simp [hfound, eq_comm]
          · simp [hname, beq_false_of_ne hname] }

/-- A change to one object does not matter if it neither makes nor removes a
constant, and the parts that it adds are there. -/
theorem WellFormed.modify (hwf : h.WellFormed) {f : Content → Content} (a : Address)
    (hf : ∀ o o', ¬o'.IsOrdinary → (f o = o' ↔ o = o'))
    (hparts : ∀ o, ∀ p ∈ (f o).parts, p ∈ o.parts ∨ p = b) (hb : b < h.objects.size) :
    WellFormed { h with objects := h.objects.modify a f } := by
  have hsame {c : Address} {o' : Content} (ho : ¬o'.IsOrdinary) :
      (h.objects.modify a f)[c]? = some o' ↔ h.objects[c]? = some o' := by
    rw [Array.getElem?_modify]
    split
    · simp [hf _ _ ho]
    · rfl
  exact {
    parts := fun {c o'} ha p hp => by
      rw [Array.size_modify]
      rw [Array.getElem?_modify] at ha
      split at ha
      · obtain ⟨o, ho, rfl⟩ := Option.map_eq_some_iff.mp ha
        rcases hparts o p hp with hold | rfl
        · exact hwf.parts ho p hold
        · exact hb
      · exact hwf.parts ha p hp
    filled := fun {c} ha => hwf.filled ((hsame id).mp ha)
    homes := fun {o b} hb c => by
      rw [hsame (Content.not_isOrdinary_of_home?_eq_some hb), hwf.homes hb]
    symbols := fun {name c} => by
      rw [hsame id, hwf.symbols] }

theorem WellFormed.setCar (hwf : h.WellFormed) (a : Address) (hb : b < h.objects.size) :
    (h.setCar a b).WellFormed :=
  hwf.modify a (fun _ _ => Content.withCar_eq_iff) (fun _ _ => Content.mem_parts_withCar) hb

theorem WellFormed.setCdr (hwf : h.WellFormed) (a : Address) (hb : b < h.objects.size) :
    (h.setCdr a b).WellFormed :=
  hwf.modify a (fun _ _ => Content.withCdr_eq_iff) (fun _ _ => Content.mem_parts_withCdr) hb

end Heap

end MiniScheme
