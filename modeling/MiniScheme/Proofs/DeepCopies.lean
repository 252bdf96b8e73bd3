import MiniScheme.Proofs.Collecting
import MiniScheme.Proofs.HeapCopies
import MiniScheme.Proofs.Representation

/-!
# `MiniScheme.Proofs.DeepCopies`: a deep copy has the shape of the value

A program makes deep copies in a store, where a copy is a renaming of all objects
that the value leads to. The host makes them in a heap, object by object, with a
memo. The two agree: if a store represents a heap, then the copy in the store
represents the copy in the heap (`Heap.Represents.deepCopy`).

On the side of the store, a deep copy comes from a plan that is closed
(`CopyPlan.Closed`): it has all that its pairs and vectors refer to. The walk that
the plan comes from collects all that can be reached (`closed_ofObjects`). The new
names are new (`not_has_renameValue`) and differ from each other
(`renameValue_inj`). On the side of the heap, the memo says which copy belongs to
which object, and the new value of a copy is the renamed value of the object.

`Heap.deepCopy_isomorphic_and_apart` says what a deep copy is: new pairs and vectors
in the shape of the old ones, with the same atoms, and neither of the two sees later
writes to the other.
-/

set_option autoImplicit false

namespace MiniScheme

namespace Store

variable {s t : Store} {plan : CopyPlan} {v w : Value} {o : Object} {found : List Object}

/-! ### Plans -/

namespace CopyPlan

/-- The object of a value is to be copied; an atom has none. -/
def Covers (plan : CopyPlan) : Value → Prop
  | .pair r => r ∈ plan.cells
  | .vector r => r ∈ plan.vectors
  | .closure r => r ∈ plan.closures
  | .primitive r => r ∈ plan.primitives
  | _ => True

/-- The pairs and vectors to copy are there, and what they refer to is to be
copied as well. -/
structure Closed (plan : CopyPlan) (s : Store) : Prop where
  cells : ∀ r ∈ plan.cells, ∃ c, s.cells[r]? = some c ∧ plan.Covers c.car ∧ plan.Covers c.cdr
  vectors : ∀ r ∈ plan.vectors, ∃ items, s.vectors[r]? = some items ∧ ∀ v ∈ items, plan.Covers v

theorem covers_ofObjects (h : ∀ o, v.object? = some o → o ∈ found) :
    (ofObjects found).Covers v := by
  cases v with
  | pair | vector | closure | primitive =>
      have hmem := h _ rfl
      simpa [Covers, ofObjects, List.mem_filterMap] using ⟨_, hmem, rfl⟩
  | _ => trivial

theorem mem_cells_ofObjects {r : Ref} : r ∈ (ofObjects found).cells ↔ .cell r ∈ found := by
  rw [ofObjects, List.mem_mergeSort, List.mem_filterMap]
  refine ⟨fun ⟨o, hmem, ho⟩ => ?_, fun h => ⟨_, h, rfl⟩⟩
  cases o <;> simp_all

theorem mem_vectors_ofObjects {r : Ref} : r ∈ (ofObjects found).vectors ↔ .vector r ∈ found := by
  rw [ofObjects, List.mem_mergeSort, List.mem_filterMap]
  refine ⟨fun ⟨o, hmem, ho⟩ => ?_, fun h => ⟨_, h, rfl⟩⟩
  cases o <;> simp_all

end CopyPlan

/-- A list of objects that are there, with all their parts, makes a closed
plan. -/
theorem closed_ofObjects (hhas : ∀ o ∈ found, s.Has o)
    (hparts : ∀ o ∈ found, ∀ p ∈ s.parts o, p ∈ found) : (CopyPlan.ofObjects found).Closed s where
  cells r hr := by
    have hmem := CopyPlan.mem_cells_ofObjects.mp hr
    have hlt : r < s.cells.size := hhas _ hmem
    have hcell : s.cells[r]? = some s.cells[r] := Array.getElem?_eq_getElem hlt
    have hfields o := (mem_parts_cell (o := o) hcell).mpr
    exact ⟨_, hcell,
      CopyPlan.covers_ofObjects fun o ho => hparts _ hmem o (hfields o (.inl ho)),
      CopyPlan.covers_ofObjects fun o ho => hparts _ hmem o (hfields o (.inr ho))⟩
  vectors r hr := by
    have hmem := CopyPlan.mem_vectors_ofObjects.mp hr
    have hlt : r < s.vectors.size := hhas _ hmem
    have hitems : s.vectors[r]? = some s.vectors[r] := Array.getElem?_eq_getElem hlt
    exact ⟨_, hitems, fun v hv => CopyPlan.covers_ofObjects fun o ho =>
      hparts _ hmem o ((mem_parts_vector hitems).mpr ⟨v, hv, ho⟩)⟩

/-! ### New names -/

theorem le_renamed {copied : List Ref} {size : Nat} {r : Ref} (h : r ∈ copied) :
    size ≤ renamed copied size r := by
  rw [renamed, if_pos h]
  omega

theorem renamed_inj {copied : List Ref} {size : Nat} {q r : Ref} (hq : q ∈ copied)
    (hr : r ∈ copied) (h : renamed copied size q = renamed copied size r) : q = r := by
  rw [renamed, if_pos hq, renamed, if_pos hr] at h
  exact (List.idxOf_inj hq).mp (Nat.add_left_cancel h)

/-- Atoms keep their names. -/
theorem renameValue_of_object?_eq_none (h : v.object? = none) : s.renameValue plan v = v := by
  cases v with
  | pair | vector | closure | primitive => cases h
  | _ => rfl

/-- The copy of an object is an object, and the copy of an atom none. -/
theorem object?_renameValue_eq_none_iff :
    (s.renameValue plan v).object? = none ↔ v.object? = none := by
  cases v <;> simp [renameValue, Value.object?]

theorem renameValue_inj (hv : plan.Covers v) (hw : plan.Covers w)
    (h : s.renameValue plan v = s.renameValue plan w) : v = w := by
  cases v <;> cases w <;> simp only [renameValue, reduceCtorEq] at h ⊢ <;> try exact h
  all_goals
    injection h with h
    rw [renamed_inj hv hw h]

/-- A new name is none of those that were given before. -/
theorem not_has_renameValue (hv : plan.Covers v) (ho : (s.renameValue plan v).object? = some o) :
    ¬s.Has o := by
  cases v with
  | pair | vector | closure | primitive =>
      cases ho
      exact Nat.not_lt.mpr (le_renamed hv)
  | _ => cases ho

/-! ### The copied objects -/

/-- Objects stay where they are when others are put at the end. -/
theorem getElem?_append_of_lt {α : Type} {xs : Array α} (ys : List α) {r : Ref}
    (h : r < xs.size) : (xs ++ ys)[r]? = xs[r]? := by
  have hlt : r < xs.toList.length := by simpa using h
  rw [← Array.getElem?_toList, Array.toList_appendList, List.getElem?_append_left hlt,
    Array.getElem?_toList]

/-- What is found for the members of a list stands where they stand, if something
is found for each. -/
theorem getElem?_filterMap_idxOf {α : Type} {f : Ref → Option α} {copied : List Ref} {r : Ref}
    (hall : ∀ q ∈ copied, (f q).isSome) (hr : r ∈ copied) :
    (copied.filterMap f)[copied.idxOf r]? = f r := by
  induction copied with
  | nil => cases hr
  | cons q copied ih =>
      obtain ⟨a, ha⟩ := Option.isSome_iff_exists.mp (hall q List.mem_cons_self)
      rw [List.filterMap_cons_some ha, List.idxOf_cons]
      by_cases hq : q = r
      · subst hq
        simp [ha]
      · have hrest : r ∈ copied := (List.mem_cons.mp hr).resolve_left (Ne.symm hq)
        rw [beq_false_of_ne hq, cond_false, List.getElem?_cons_succ]
        exact ih (fun q hmem => hall q (List.mem_cons_of_mem _ hmem)) hrest

/-- The copy of an object stands at its new name. -/
theorem getElem?_append_renamed {α : Type} {xs : Array α} {f : Ref → Option α}
    {copied : List Ref} {r : Ref} (hall : ∀ q ∈ copied, (f q).isSome) (hr : r ∈ copied) :
    (xs ++ copied.filterMap f)[renamed copied xs.size r]? = f r := by
  rw [renamed, if_pos hr, ← Array.getElem?_toList, Array.toList_appendList,
    List.getElem?_append_right (by simp), Array.length_toList, Nat.add_sub_cancel_left,
    getElem?_filterMap_idxOf hall hr]

theorem cells_addCopies (h : plan.Closed s) {r : Ref} (hr : r ∈ plan.cells) :
    (s.addCopies plan).cells[renamed plan.cells s.cells.size r]? =
      s.cells[r]?.map (s.renameCell plan) := by
  refine getElem?_append_renamed (fun q hq => ?_) hr
  obtain ⟨c, hc, -⟩ := h.cells q hq
  simp [hc]

theorem vectors_addCopies (h : plan.Closed s) {r : Ref} (hr : r ∈ plan.vectors) :
    (s.addCopies plan).vectors[renamed plan.vectors s.vectors.size r]? =
      s.vectors[r]?.map fun items => items.map (s.renameValue plan) := by
  refine getElem?_append_renamed (fun q hq => ?_) hr
  obtain ⟨items, hitems, -⟩ := h.vectors q hq
  simp [hitems]

/-- What was there before stays as it is. -/
theorem same_addCopies (plan : CopyPlan) (ho : s.Has o) : s.Same (s.addCopies plan) o := by
  cases o <;> exact getElem?_append_of_lt _ ho

/-! ### What a deep copy is -/

theorem deepCopy_of_none {depth : Nat} (hx : v.object? = none) :
    s.deepCopy depth v = .ok (v, s) := by
  rw [deepCopy, hx]

theorem deepCopy_of_some {depth : Nat} {x : Object} (hx : v.object? = some x) :
    s.deepCopy depth v = (s.reach depth [] x).map fun found =>
      (s.renameValue (.ofObjects found) v, s.addCopies (.ofObjects found)) := by
  rw [deepCopy, hx]
  rfl

/-- A deep copy comes from a closed plan that covers the value. -/
theorem exists_plan {depth : Nat} (hv : ∀ o, s.Reachable v.object?.toList o → s.Has o)
    (h : s.deepCopy depth v = .ok (w, t)) :
    ∃ plan : CopyPlan, plan.Closed s ∧ plan.Covers v ∧ w = s.renameValue plan v ∧
      t = s.addCopies plan := by
  cases hx : v.object? with
  | none =>
      rw [deepCopy_of_none hx] at h
      cases h
      refine ⟨.ofObjects [], closed_ofObjects (by simp) (by simp),
        CopyPlan.covers_ofObjects fun o ho => by simp [hx] at ho,
        (renameValue_of_object?_eq_none hx).symm, ?_⟩
      simp [addCopies, CopyPlan.ofObjects]
  | some x =>
      rw [deepCopy_of_some hx] at h
      rw [hx] at hv
      cases hwalk : s.reach depth [] x with
      | error e =>
          rw [hwalk] at h
          cases h
      | ok found =>
          rw [hwalk] at h
          cases h
          have hmem {o : Object} : o ∈ found ↔ s.Reachable [x] o := mem_reach_iff hwalk
          refine ⟨.ofObjects found, closed_ofObjects (fun o ho => hv o (hmem.mp ho)) ?_,
            CopyPlan.covers_ofObjects fun o ho => ?_, rfl, rfl⟩
          · exact fun o ho p hp => hmem.mpr (.part (hmem.mp ho) hp)
          · obtain rfl := Option.some.inj (hx.symm.trans ho)
            exact hmem.mpr (.root List.mem_cons_self)

/-- There is a deep copy if there are more levels than objects. -/
theorem exists_deepCopy {depth : Nat} (hv : ∀ o, s.Reachable v.object?.toList o → s.Has o)
    (hdepth : s.objects.length < depth) : ∃ c t, s.deepCopy depth v = .ok (c, t) := by
  cases hx : v.object? with
  | none => exact ⟨v, s, deepCopy_of_none hx⟩
  | some x =>
      rw [hx] at hv
      obtain ⟨found, hwalk⟩ := exists_reach_nil hv hdepth
      rw [deepCopy_of_some hx, hwalk]
      exact ⟨_, _, rfl⟩

/-- Nesting is the only fault. -/
theorem deepCopy_eq_error {depth : Nat} {e : Fault} (h : s.deepCopy depth v = .error e) :
    e = .tooDeep := by
  cases hx : v.object? with
  | none =>
      rw [deepCopy_of_none hx] at h
      cases h
  | some x =>
      rw [deepCopy_of_some hx] at h
      cases hwalk : s.reach depth [] x with
      | ok found =>
          rw [hwalk] at h
          cases h
      | error e' =>
          rw [hwalk] at h
          cases h
          exact reach_eq_error depth hwalk

end Store

/-! ### The renaming refines the memo -/

namespace Heap

variable {h h' : Heap} {s : Store} {plan : Store.CopyPlan} {ρ ρ' : Address → Value}
  {a b c x y : Address} {o : Content} {v : Value}

/-- What a covered object refers to is covered. -/
theorem Represents.covers_part (hr : h.Represents s ρ) (hclosed : plan.Closed s)
    (hx : h.objects[x]? = some o) (hcovers : plan.Covers (ρ x)) (hy : y ∈ o.parts) :
    plan.Covers (ρ y) := by
  have hstands := hr.stands hx
  generalize ρ x = v at hstands hcovers
  cases hstands with
  | pair cell =>
      obtain ⟨c, hc, hcar, hcdr⟩ := hclosed.cells _ hcovers
      obtain rfl := Option.some.inj (cell.symm.trans hc)
      rcases List.mem_pair.mp hy with rfl | rfl
      · exact hcar
      · exact hcdr
  | vector contents =>
      obtain ⟨items, hitems, hall⟩ := hclosed.vectors _ hcovers
      obtain rfl := Option.some.inj (contents.symm.trans hitems)
      exact hall _ (List.mem_map_of_mem hy)
  | _ => cases hy

/-- What a covered object leads to is covered. -/
theorem Represents.covers_of_reaches (hr : h.Represents s ρ) (hclosed : plan.Closed s)
    (hcovers : plan.Covers (ρ a)) (hb : h.Reaches a b) : plan.Covers (ρ b) := by
  refine hb.kept (P := fun x => plan.Covers (ρ x)) (fun {x y selector} hx hy => ?_) hcovers
  obtain ⟨o, hxo, hchild⟩ := Option.bind_eq_some_iff.mp hy
  exact hr.covers_part hclosed hxo hx (Content.mem_parts_iff.mpr ⟨selector, hchild⟩)

/-- What stood for an object stands for it when there are copies. -/
theorem stands_addCopies (plan : Store.CopyPlan) (hstands : s.Stands ρ o v)
    (hparts : ∀ p ∈ o.parts, ρ' p = ρ p) : (s.addCopies plan).Stands ρ' o v := by
  cases hstands with
  | pair cell =>
      have hcar := hparts _ List.mem_cons_self
      have hcdr := hparts _ (List.mem_cons_of_mem _ List.mem_cons_self)
      refine .pair ?_
      rw [hcar, hcdr, ← cell]
      exact Store.same_addCopies (o := .cell _) plan (Array.getElem?_eq_some_iff.mp cell).1
  | @vector items r contents =>
      have hitems : items.map ρ' = items.map ρ := List.map_congr_left hparts
      refine .vector ?_
      rw [hitems, ← contents]
      exact Store.same_addCopies (o := .vector _) plan (Array.getElem?_eq_some_iff.mp contents).1
  | _ => constructor

/-- The renamed value stands for the object with renamed parts. -/
theorem stands_renameValue (hclosed : plan.Closed s) (hcovers : plan.Covers v)
    (hstands : s.Stands ρ o v) {image : Address → Address}
    (hparts : ∀ p ∈ o.parts, ρ' (image p) = s.renameValue plan (ρ p)) :
    (s.addCopies plan).Stands ρ' (o.refill (o.parts.map image)) (s.renameValue plan v) := by
  cases hstands with
  | pair cell =>
      have hcar := hparts _ List.mem_cons_self
      have hcdr := hparts _ (List.mem_cons_of_mem _ List.mem_cons_self)
      refine .pair ?_
      rw [Store.cells_addCopies hclosed hcovers, cell, Option.map_some, Store.renameCell, hcar,
        hcdr]
  | vector contents =>
      refine .vector ?_
      rw [Store.vectors_addCopies hclosed hcovers, contents, Option.map_some, List.map_map,
        List.map_map]
      exact congrArg some (List.map_congr_left fun p hp => (hparts p hp).symm)
  | _ => constructor

/-- The values of the copies, next to those of the objects that were there. -/
theorem exists_values {k : Copying} (hk : Copying.Sound h k) (ρ : Address → Value)
    (f : Value → Value) : ∃ ρ' : Address → Value, (∀ b < h.objects.size, ρ' b = ρ b) ∧
      ∀ b c, k.memo.lookup b = some c → ρ' c = f (ρ b) := by
  classical
  refine ⟨fun c => if hc : ∃ b, k.memo.lookup b = some c then f (ρ hc.choose) else ρ c, ?_, ?_⟩
  · intro b hb
    exact dif_neg fun ⟨a, ha⟩ => Nat.not_le.mpr hb (hk.new ha).1
  · intro b c hb
    have hc : ∃ b, k.memo.lookup b = some c := ⟨b, hb⟩
    exact (dif_pos hc).trans (by rw [hk.inj hc.choose_spec hb])

/-- A renamed pair or vector is none that was there. -/
theorem Represents.renameValue_ne (hr : h.Represents s ρ) (hcovers : plan.Covers (ρ b))
    (hb : h.objects[b]? = some o) (ho : o.isCompound = true) {o' : Content}
    (hc : h.objects[c]? = some o') : s.renameValue plan (ρ b) ≠ ρ c := by
  intro heq
  have hobject : (s.renameValue plan (ρ b)).object? ≠ none := by
    rw [ne_eq, Store.object?_renameValue_eq_none_iff, (hr.stands hb).object?_eq_none_iff, ho]
    exact nofun
  obtain ⟨x, hx⟩ := Option.ne_none_iff_exists'.mp hobject
  exact Store.not_has_renameValue hcovers hx (hr.has hc (heq ▸ hx))

/-- Copies in the store represent copies in the heap. -/
theorem Represents.copies (hr : h.Represents s ρ) (hwf : h.WellFormed) {k : Copying}
    (hk : Copying.Whole h k) (hclosed : plan.Closed s)
    (hcovers : ∀ b c, k.memo.lookup b = some c → plan.Covers (ρ b)) :
    ∃ ρ', k.heap.Represents (s.addCopies plan) ρ' ∧ (∀ b < h.objects.size, ρ' b = ρ b) ∧
      ∀ b, Copying.Known h k b → ρ' (k.image b) = s.renameValue plan (ρ b) := by
  obtain ⟨ρ', hold, hnew⟩ := exists_values hk.toSound ρ (s.renameValue plan)
  have himage {b : Address} (hb : Copying.Known h k b) :
      ρ' (k.image b) = s.renameValue plan (ρ b) := by
    obtain ⟨o, hbo, hcopied⟩ := hb
    cases ho : o.isCompound with
    | false =>
        rw [hk.image_eq hbo ho, hold b (lt_of_getElem? hbo), Store.renameValue_of_object?_eq_none
          ((hr.stands hbo).object?_eq_none_iff.mpr ho)]
    | true =>
        obtain ⟨c, hc⟩ := hcopied ho
        rw [Copying.image_of_lookup hc, hnew b c hc]
  -- Each object of the new heap was there before, or is the copy of one that was.
  have hcases {c : Address} {o : Content} (hc : k.heap.objects[c]? = some o) :
      h.objects[c]? = some o ∨ ∃ b original, k.memo.lookup b = some c ∧
        h.objects[b]? = some original ∧ original.isCompound = true ∧
        o = original.refill (original.parts.map k.image) ∧
        ∀ p ∈ original.parts, Copying.Known h k p := by
    rcases Nat.lt_or_ge c h.objects.size with hlt | hge
    · exact .inl ((hk.old hlt).symm.trans hc)
    · exact .inr (hk.exists_original hge hc)
  refine ⟨ρ', ⟨fun {c o} hc => ?_, fun {c d o o'} hc hd heq => ?_⟩, hold, fun b => himage⟩
  · rcases hcases hc with hc | ⟨b, original, hb, hbo, -, rfl, hparts⟩
    · rw [hold c (lt_of_getElem? hc)]
      exact stands_addCopies plan (hr.stands hc) fun p hp => hold p (hwf.parts hc p hp)
    · rw [hnew b c hb]
      exact stands_renameValue hclosed (hcovers b c hb) (hr.stands hbo) fun p hp =>
        himage (hparts p hp)
  · rcases hcases hc with hc | ⟨b, original, hb, hbo, ho, rfl, -⟩ <;>
      rcases hcases hd with hd | ⟨b', original', hb', hbo', ho', rfl, -⟩
    · rw [hold c (lt_of_getElem? hc), hold d (lt_of_getElem? hd)] at heq
      exact hr.inj hc hd heq
    · rw [hold c (lt_of_getElem? hc), hnew b' d hb'] at heq
      exact absurd heq.symm (hr.renameValue_ne (hcovers b' d hb') hbo' ho' hc)
    · rw [hold d (lt_of_getElem? hd), hnew b c hb] at heq
      exact absurd heq (hr.renameValue_ne (hcovers b c hb) hbo ho hd)
    · rw [hnew b c hb, hnew b' d hb'] at heq
      have hvalues := Store.renameValue_inj (hcovers b c hb) (hcovers b' d hb') heq
      rcases hr.inj hbo hbo' hvalues with rfl | ⟨n, rfl⟩
      · exact .inl (Option.some.inj (hb.symm.trans hb'))
      · cases ho

/-- If a store represents a heap, then a deep copy in the store represents the deep
copy in the heap. -/
theorem Represents.deepCopy {depth depth' : Nat} {w : Value} {t : Store} (hr : h.Represents s ρ)
    (hwf : h.WellFormed) (ha : a < h.objects.size) (hcopy : h.deepCopy depth a = .ok (c, h'))
    (hcopy' : s.deepCopy depth' (ρ a) = .ok (w, t)) :
    ∃ ρ', h'.Represents t ρ' ∧ ρ' c = w ∧ ∀ b < h.objects.size, ρ' b = ρ b := by
  obtain ⟨k, hk, hknown, rfl, rfl, hreaches⟩ := exists_whole hwf ha hcopy
  have hao := Array.getElem?_eq_getElem ha
  have hhas (x : Object) (hx : s.Reachable (ρ a).object?.toList x) : s.Has x := by
    obtain ⟨b, o, hb, hobject⟩ := hr.exists_of_reachable hwf hao hx
    exact hr.has hb hobject
  obtain ⟨plan, hclosed, hcovers, rfl, rfl⟩ := Store.exists_plan hhas hcopy'
  obtain ⟨ρ', hr', hold, himage⟩ := hr.copies hwf hk hclosed fun b c hc =>
    hr.covers_of_reaches hclosed hcovers (hreaches b c hc)
  exact ⟨ρ', hr', himage a hknown, hold⟩

/-- A deep copy in the store is made if there are more levels than objects. -/
theorem Represents.exists_deepCopy {depth : Nat} (hr : h.Represents s ρ) (hwf : h.WellFormed)
    (ha : a < h.objects.size) (hdepth : s.objects.length < depth) :
    ∃ w t, s.deepCopy depth (ρ a) = .ok (w, t) := by
  refine Store.exists_deepCopy (fun x hx => ?_) hdepth
  obtain ⟨b, o, hb, hobject⟩ := hr.exists_of_reachable hwf (Array.getElem?_eq_getElem ha) hx
  exact hr.has hb hobject

/-! ### What a deep copy is -/

/-- The object `c` of the second heap is a deep copy of the object `a` of the first
one. It consists of new pairs and vectors, in the shape of those of `a`, and of the
atoms of `a`. All objects of the first heap are as they were, and whatever programs
write to pairs of one of the two later, the other one does not see it. -/
structure IsDeepCopy (h : Heap) (a : Address) (h' : Heap) (c : Address) : Prop where
  old : ∀ b < h.objects.size, h'.objects[b]? = h.objects[b]?
  symbols : h'.symbols = h.symbols
  new : ∀ path b o, h'.follow c path = some b → h'.objects[b]? = some o → o.isCompound = true →
    h.objects.size ≤ b
  shape : h.SameShape a h' c
  original : ∀ u, h'.Later (h'.Reaches c) u → h.AsBefore u a
  copy : ∀ u, h'.Later (h'.Reaches a) u → h'.AsBefore u c

theorem isDeepCopy_of_whole (hwf : h.WellFormed) (ha : a < h.objects.size) {k : Copying}
    (hk : Copying.Whole h k) (hknown : Copying.Known h k a) :
    h.IsDeepCopy a k.heap (k.image a) := by
  have hwf' := hk.wellFormed hwf
  have hold {b : Address} (hb : h.Reaches a b) : b < h.objects.size := by
    obtain ⟨o, ho⟩ := hwf.exists_of_reaches ha hb
    exact lt_of_getElem? ho
  have hbefore : h.AsBefore k.heap a := asBefore_of_reaches fun b hb => hk.old (hold hb)
  have hnew {path : List Selector} {b : Address} {o : Content}
      (hb : k.heap.follow (k.image a) path = some b) (hbo : k.heap.objects[b]? = some o)
      (ho : o.isCompound = true) : h.objects.size ≤ b := by
    rw [hk.follow_image hknown] at hb
    obtain ⟨x, hx, rfl⟩ := Option.map_eq_some_iff.mp hb
    have hknown := hk.known_follow hknown hx
    rw [hk.getElem?_image hknown] at hbo
    obtain ⟨o', hxo, rfl⟩ := Option.map_eq_some_iff.mp hbo
    exact hk.le_image hknown hxo (Content.isCompound_refill o' _ ▸ ho)
  -- Pairs of the original were there before the copy, and pairs of the copy were not.
  have hapart {b : Address} {o : Content} (hbo : k.heap.objects[b]? = some o)
      (ho : o.isCompound = true) (hb : k.heap.Reaches a b) : ¬k.heap.Reaches (k.image a) b := by
    rintro ⟨path, hpath⟩
    obtain ⟨path', hpath'⟩ := hb
    exact Nat.not_le.mpr (hold ⟨path', (hbefore path').1 ▸ hpath'⟩) (hnew hpath hbo ho)
  exact {
    old := fun b => hk.old
    symbols := hk.symbols
    new := fun path b o => hnew
    shape := hk.sameShape hwf hknown
    original := fun u hu => hbefore.trans <|
      hu.asBefore hwf' (hk.size ▸ Nat.lt_add_right _ ha) fun b o hb hbo ho => hapart hbo ho hb
    copy := fun u hu => hu.asBefore hwf' (hk.image_lt hknown) fun b o hc hbo ho hb =>
      hapart hbo ho hb hc }

/-- Programs that test the values of the one object and of the other get the same
answers along all paths. -/
structure SameAnswers (h : Heap) (a : Address) (ρ : Address → Value) (h' : Heap) (c : Address)
    (ρ' : Address → Value) : Prop where
  isNull : ∀ path x y depth, h.follow a path = some x → h'.follow c path = some y →
    (Operation.isNull.run depth [ρ' y] : Eval Value) = Operation.isNull.run depth [ρ x]
  isSymbol : ∀ path x y depth, h.follow a path = some x → h'.follow c path = some y →
    (Operation.isSymbol.run depth [ρ' y] : Eval Value) = Operation.isSymbol.run depth [ρ x]
  isTrue : ∀ path x y, h.follow a path = some x → h'.follow c path = some y →
    (ρ' y).isTrue = (ρ x).isTrue
  same : ∀ path x y path' x' y' depth, h.follow a path = some x → h'.follow c path = some y →
    h.follow a path' = some x' → h'.follow c path' = some y' →
    (Operation.same.run depth [ρ' y, ρ' y'] : Eval Value) = Operation.same.run depth [ρ x, ρ x']

/-- Objects of one shape give the same answers in all stores that represent them. -/
theorem SameShape.answers {t : Store} (hshape : h.SameShape a h' c) (hwf : h.WellFormed)
    (hwf' : h'.WellFormed) (ha : a < h.objects.size) (hc : c < h'.objects.size)
    (hr : h.Represents s ρ) (hr' : h'.Represents t ρ') : SameAnswers h a ρ h' c ρ' := by
  have hthere {path : List Selector} {x : Address} (hx : h.follow a path = some x) :
      ∃ o, h.objects[x]? = some o := hwf.exists_of_reaches ha ⟨path, hx⟩
  have hthere' {path : List Selector} {y : Address} (hy : h'.follow c path = some y) :
      ∃ o, h'.objects[y]? = some o := hwf'.exists_of_reaches hc ⟨path, hy⟩
  exact {
    isNull := fun path x y depth hx hy => by
      obtain ⟨o, hxo⟩ := hthere hx
      obtain ⟨o', hyo⟩ := hthere' hy
      rw [hr.run_isNull hwf hxo, hr'.run_isNull hwf' hyo, hshape.isNull path x y hx hy]
    isSymbol := fun path x y depth hx hy => by
      obtain ⟨o, hxo⟩ := hthere hx
      obtain ⟨o', hyo⟩ := hthere' hy
      rw [hr.run_isSymbol hxo, hr'.run_isSymbol hyo, hshape.isSymbol path x y hx hy]
    isTrue := fun path x y hx hy => by
      obtain ⟨o, hxo⟩ := hthere hx
      obtain ⟨o', hyo⟩ := hthere' hy
      rw [hr.isTrue_eq hwf hxo, hr'.isTrue_eq hwf' hyo, hshape.isTrue path x y hx hy]
    same := fun path x y path' x' y' depth hx hy hx' hy' => by
      obtain ⟨o, hxo⟩ := hthere hx
      obtain ⟨o', hyo⟩ := hthere' hy
      obtain ⟨o₁, hxo₁⟩ := hthere hx'
      obtain ⟨o₁', hyo₁⟩ := hthere' hy'
      rw [hr.run_same hxo hxo₁, hr'.run_same hyo hyo₁,
        hshape.same path x y path' x' y' hx hy hx' hy'] }

/-- The copier makes a deep copy of every object of a well-formed heap, if there are
more levels than objects, and nesting is the only fault. The heap stays well-formed.

If a store represents the heap, a deep copy of the value in the store represents the
deep copy in the heap, and programs get the same answers about the value and its
copy. -/
theorem deepCopy_isomorphic_and_apart (h : Heap) (hwf : h.WellFormed) (a : Address)
    (ha : a < h.objects.size) :
    (∀ depth, h.objects.size < depth → ∃ c h', h.deepCopy depth a = .ok (c, h')) ∧
    (∀ depth e, h.deepCopy depth a = .error e → e = .tooDeep) ∧
    ∀ depth c h', h.deepCopy depth a = .ok (c, h') →
      h'.WellFormed ∧ h.IsDeepCopy a h' c ∧
      ∀ s ρ, h.Represents s ρ →
        (∀ depth', s.objects.length < depth' →
          ∃ w t, s.deepCopy depth' (ρ a) = .ok (w, t)) ∧
        (∀ depth' e, s.deepCopy depth' (ρ a) = .error e → e = .tooDeep) ∧
        ∀ depth' w t, s.deepCopy depth' (ρ a) = .ok (w, t) →
          ∃ ρ', h'.Represents t ρ' ∧ ρ' c = w ∧ (∀ b < h.objects.size, ρ' b = ρ b) ∧
            SameAnswers h a ρ h' c ρ' := by
  refine ⟨fun depth => exists_deepCopy hwf ha, fun depth e => deepCopy_eq_error, ?_⟩
  intro depth c h' hcopy
  obtain ⟨k, hk, hknown, rfl, rfl, -⟩ := exists_whole hwf ha hcopy
  have hwf' := hk.wellFormed hwf
  have hdeep := isDeepCopy_of_whole hwf ha hk hknown
  refine ⟨hwf', hdeep, fun s ρ hr => ⟨fun depth' => hr.exists_deepCopy hwf ha,
    fun depth' e => Store.deepCopy_eq_error, fun depth' w t hcopy' => ?_⟩⟩
  obtain ⟨ρ', hr', hw, hold⟩ := hr.deepCopy hwf ha hcopy hcopy'
  exact ⟨ρ', hr', hw, hold, hdeep.shape.answers hwf hwf' ha (hk.image_lt hknown) hr hr'⟩

/-- Two pairs in a ring. The first field of the one is the empty list and that of the
other a vector, which holds `#f`, the first pair and a symbol. -/
def ringHeap : Heap :=
  let h := (initial.intern "x").2
  let h := (h.add (.pair (some (Address.emptyList, Address.emptyList)))).2
  let h := (h.add (.vector [Address.boolean false, 5, 4])).2
  let h := (h.add (.pair (some (6, 5)))).2
  h.setCdr 5 7

/-- A store with this ring. -/
def ringStore : Store where
  cells := #[⟨.nil, .pair 1⟩, ⟨.vector 0, .pair 0⟩]
  vectors := #[[.boolean false, .pair 0, .symbol "x"]]

/-- The values in it that represent the objects. -/
def ringValue (a : Address) : Value :=
  [.nil, .boolean false, .boolean true, .emptySequence, .symbol "x", .pair 0, .vector 0,
    .pair 1].getD a .nil

theorem wellFormed_ringHeap : ringHeap.WellFormed := by
  have hx := wellFormed_initial.intern "x"
  have hpair := hx.add (o := .pair (some (Address.emptyList, Address.emptyList))) trivial
    (by decide)
  have hvector := hpair.add (o := .vector [Address.boolean false, 5, 4]) trivial (by decide)
  have hring := hvector.add (o := .pair (some (6, 5))) trivial (by decide)
  exact hring.setCdr 5 (by decide)

theorem represents_ringHeap : ringHeap.Represents ringStore ringValue where
  stands {a o} ha := by
    rcases a with _ | _ | _ | _ | _ | _ | _ | _ | a <;> cases ha <;> constructor <;> rfl
  inj {a b o o'} ha hb heq := by
    have hinj : ∀ a < 8, ∀ b < 8, ringValue a = ringValue b → a = b := by decide
    exact .inl (hinj a (lt_of_getElem? ha) b (lt_of_getElem? hb) heq)

theorem deepCopy_isomorphic_and_apart_ringHeap :
    ringHeap.WellFormed ∧ 5 < ringHeap.objects.size ∧ ringHeap.Represents ringStore ringValue ∧
    ∃ c h', ringHeap.deepCopy 9 5 = .ok (c, h') ∧ ringHeap.IsDeepCopy 5 h' c ∧
      ∃ w t ρ, ringStore.deepCopy 4 (.pair 0) = .ok (w, t) ∧ h'.Represents t ρ ∧ ρ c = w := by
  have hlt : 5 < ringHeap.objects.size := by decide
  have hall := deepCopy_isomorphic_and_apart ringHeap wellFormed_ringHeap 5 hlt
  obtain ⟨c, h', hcopy⟩ := hall.1 9 (by decide)
  obtain ⟨-, hdeep, hstore⟩ := hall.2.2 9 c h' hcopy
  obtain ⟨hends, -, hrepresents⟩ := hstore ringStore ringValue represents_ringHeap
  obtain ⟨w, t, hcopy'⟩ := hends 4 (by decide)
  obtain ⟨ρ, hr, hw, -, -⟩ := hrepresents 4 w t hcopy'
  exact ⟨wellFormed_ringHeap, hlt, represents_ringHeap, c, h', hcopy, hdeep, w, t, ρ, hcopy', hr,
    hw⟩

end Heap

end MiniScheme
