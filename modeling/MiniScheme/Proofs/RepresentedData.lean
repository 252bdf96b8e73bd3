import Mathlib.Data.List.Basic
import Mathlib.Data.List.Dedup
import MiniScheme.Proofs.FreshTrees
import MiniScheme.Proofs.Representation

/-!
# `MiniScheme.Proofs.RepresentedData`: each datum of a store stands for an object

What is proved of heaps is proved of the data in stores, since each datum of a store
represents an object of some heap (`exists_represents`). The heap is made of a row
of values: the constants in their places, and then all values that the datum leads
to, each once (`Store.Row`). The address of a value is its place in the row.
-/

set_option autoImplicit false

namespace MiniScheme

/-- No procedures and nothing of the host are in data. -/
def Value.IsData : Value → Prop
  | .closure _ | .primitive _ | .foreign _ => False
  | _ => True

namespace Store

variable {s : Store} {v w : Value} {row : List Value} {a : Address}

/-- The value leads to data only, and to pairs and vectors that are there. -/
def IsDatum (s : Store) (v : Value) : Prop :=
  ∀ path w, s.LeadsTo v path w → w.IsData ∧ ∀ x, w.object? = some x → s.Has x

/-- A row of values without repetition, with the constants first and all parts of
its pairs and vectors. -/
structure Row (s : Store) (row : List Value) : Prop where
  constants : [.nil, .boolean false, .boolean true, .emptySequence] <+: row
  nodup : row.Nodup
  data : ∀ w ∈ row, w.IsData
  cells : ∀ r, .pair r ∈ row → ∃ c, s.cells[r]? = some c ∧ c.car ∈ row ∧ c.cdr ∈ row
  vectors : ∀ r, .vector r ∈ row → ∃ items, s.vectors[r]? = some items ∧ ∀ w ∈ items, w ∈ row

/-- What the value at a place of a row is made of, as an object. -/
def content (s : Store) (row : List Value) : Value → Content
  | .number n => .number n
  | .text _ x => .text x
  | .symbol name => .symbol name
  | .boolean b => .boolean b
  | .nil => .emptyList
  | .emptySequence => .emptySequence
  | .pair r => match s.cells[r]? with
    | some c => .pair (some (row.idxOf c.car, row.idxOf c.cdr))
    | none => .vector []
  | .vector r => .vector ((s.vectors[r]?.getD []).map row.idxOf)
  | .closure _ | .primitive _ | .foreign _ => .vector []

/-- The entry of a value in the table of symbols. -/
def symbolEntry (row : List Value) : Value → Option (String × Address)
  | .symbol name => some (name, row.idxOf (.symbol name))
  | _ => none

/-- The heap of a row. -/
def heapOf (s : Store) (row : List Value) : Heap where
  objects := (row.map (s.content row)).toArray
  symbols := row.filterMap (symbolEntry row)

theorem getElem?_eq_some_iff_idxOf (hnodup : row.Nodup) :
    row[a]? = some w ↔ w ∈ row ∧ row.idxOf w = a := by
  constructor
  · intro ha
    obtain ⟨hlt, rfl⟩ := List.getElem?_eq_some_iff.mp ha
    exact ⟨List.getElem_mem hlt, hnodup.idxOf_getElem a hlt⟩
  · rintro ⟨hw, rfl⟩
    exact List.getElem?_idxOf hw

theorem getElem?_heapOf {o : Content} : (s.heapOf row).objects[a]? = some o ↔
    ∃ w, row[a]? = some w ∧ s.content row w = o := by
  simp [heapOf]

theorem lookup_symbolEntry (name : String) (values : List Value) :
    (values.filterMap (symbolEntry row)).lookup name =
      if .symbol name ∈ values then some (row.idxOf (.symbol name)) else none := by
  induction values with
  | nil => rfl
  | cons w values ih =>
      cases w with
      | symbol other =>
          rw [List.filterMap_cons_some (show symbolEntry row (.symbol other) = some _ from rfl),
            List.lookup_cons]
          by_cases hname : name = other
          · subst hname
            simp
          · simp [beq_false_of_ne hname, ih, hname]
      | _ =>
          rw [List.filterMap_cons_none rfl, ih]
          simp

namespace Row

theorem getD_idxOf (hw : w ∈ row) : row.getD (row.idxOf w) .nil = w := by
  rw [List.getD_eq_getElem?_getD, List.getElem?_idxOf hw, Option.getD_some]

theorem stands (hrow : s.Row row) (hw : w ∈ row) :
    s.Stands (fun a => row.getD a .nil) (s.content row w) w := by
  cases w with
  | pair r =>
      obtain ⟨c, hc, hcar, hcdr⟩ := hrow.cells r hw
      rw [content, hc]
      exact .pair (by rw [hc, getD_idxOf hcar, getD_idxOf hcdr])
  | vector r =>
      obtain ⟨items, hitems, hall⟩ := hrow.vectors r hw
      have hself : items.map (fun w => row.getD (row.idxOf w) .nil) = items :=
        (List.map_congr_left fun w hw => getD_idxOf (hall w hw)).trans (List.map_id _)
      refine .vector ?_
      rw [hitems, Option.getD_some, List.map_map]
      exact congrArg some hself.symm
  | closure | primitive | foreign => exact (hrow.data _ hw).elim
  | _ => constructor

/-- The heap of a row is represented by the values of the row. -/
theorem represents (hrow : s.Row row) :
    (s.heapOf row).Represents s fun a => row.getD a .nil where
  stands {a o} ha := by
    obtain ⟨w, hw, rfl⟩ := getElem?_heapOf.mp ha
    rw [List.getD_eq_getElem?_getD, hw, Option.getD_some]
    exact hrow.stands (List.mem_of_getElem? hw)
  inj {a b o o'} ha hb heq := by
    obtain ⟨w, hw, -⟩ := getElem?_heapOf.mp ha
    obtain ⟨w', hw', -⟩ := getElem?_heapOf.mp hb
    simp only [List.getD_eq_getElem?_getD, hw, hw', Option.getD_some] at heq
    subst heq
    exact .inl (((getElem?_eq_some_iff_idxOf hrow.nodup).mp hw).2.symm.trans
      ((getElem?_eq_some_iff_idxOf hrow.nodup).mp hw').2)

theorem wellFormed (hrow : s.Row row) : (s.heapOf row).WellFormed := by
  have hsize : (s.heapOf row).objects.size = row.length := by simp [heapOf]
  have hplace {a : Address} {o : Content} {v : Value}
      (ho : ∀ w ∈ row, w = v ↔ s.content row w = o) :
      (s.heapOf row).objects[a]? = some o ↔ v ∈ row ∧ row.idxOf v = a := by
    rw [getElem?_heapOf, ← getElem?_eq_some_iff_idxOf hrow.nodup]
    constructor
    · rintro ⟨w, hw, hcontent⟩
      rwa [← (ho w (List.mem_of_getElem? hw)).mpr hcontent]
    · exact fun hv => ⟨v, hv, (ho v (List.mem_of_getElem? hv)).mp rfl⟩
  exact {
    parts := fun {a o} ha p hp => by
      obtain ⟨w, hw, rfl⟩ := getElem?_heapOf.mp ha
      have hw := List.mem_of_getElem? hw
      rw [hsize]
      cases w with
      | pair r =>
          obtain ⟨c, hc, hcar, hcdr⟩ := hrow.cells r hw
          rw [content, hc] at hp
          rcases List.mem_pair.mp hp with rfl | rfl
          · exact List.idxOf_lt_length_of_mem hcar
          · exact List.idxOf_lt_length_of_mem hcdr
      | vector r =>
          obtain ⟨items, hitems, hall⟩ := hrow.vectors r hw
          rw [content, hitems] at hp
          obtain ⟨w, hmem, rfl⟩ := List.mem_map.mp hp
          exact List.idxOf_lt_length_of_mem (hall w hmem)
      | _ => cases hp
    filled := fun {a} ha => by
      obtain ⟨w, hw, hcontent⟩ := getElem?_heapOf.mp ha
      have hstands := hrow.stands (List.mem_of_getElem? hw)
      rw [hcontent] at hstands
      cases hstands
    homes := fun {o b} hb a => by
      obtain ⟨rest, hrest⟩ := hrow.constants
      cases o <;> cases hb
      case boolean value =>
        rw [hplace fun w hw => (hrow.stands hw).eq_boolean_iff value, ← hrest]
        cases value <;> simp [Address.boolean, eq_comm]
      case emptyList =>
        rw [hplace fun w hw => (hrow.stands hw).eq_nil_iff, ← hrest]
        simp [Address.emptyList, eq_comm]
      case emptySequence =>
        rw [hplace fun w hw => (hrow.stands hw).eq_emptySequence_iff, ← hrest]
        simp [Address.emptySequence, eq_comm]
    symbols := fun {name a} => by
      rw [hplace fun w hw => (hrow.stands hw).eq_symbol_iff name, heapOf, lookup_symbolEntry]
      simp }

end Row

/-- All values in pairs and vectors. -/
def stored (s : Store) : List Value :=
  s.cells.toList.flatMap (fun c => [c.car, c.cdr]) ++ s.vectors.toList.flatten

theorem mem_stored_of_cell {r : Ref} {c : Cell} (hc : s.cells[r]? = some c)
    (hw : w ∈ [c.car, c.cdr]) : w ∈ s.stored := by
  have hmem : c ∈ s.cells.toList := Array.mem_toList_iff.mpr (Array.mem_of_getElem? hc)
  exact List.mem_append_left _ (List.mem_flatMap.mpr ⟨c, hmem, hw⟩)

theorem mem_stored_of_vector {r : Ref} {items : List Value} (hitems : s.vectors[r]? = some items)
    (hw : w ∈ items) : w ∈ s.stored := by
  have hmem : items ∈ s.vectors.toList := Array.mem_toList_iff.mpr (Array.mem_of_getElem? hitems)
  exact List.mem_append_right _ (List.mem_flatten.mpr ⟨items, hmem, hw⟩)

/-- A value leads to itself and to values in the store. -/
theorem LeadsTo.eq_or_mem_stored {path : List Selector} (hpath : s.LeadsTo v path w) :
    w = v ∨ w ∈ s.stored := by
  induction hpath with
  | here => exact .inl rfl
  | car cell _ ih =>
      exact .inr (ih.elim (fun heq => mem_stored_of_cell cell (by simp [heq])) id)
  | cdr cell _ ih =>
      exact .inr (ih.elim (fun heq => mem_stored_of_cell cell (by simp [heq])) id)
  | item contents place _ ih =>
      have hitem := mem_stored_of_vector contents (List.mem_of_getElem? place)
      exact .inr (ih.elim (fun heq => heq ▸ hitem) id)

/-- The values that a datum leads to make a row. -/
theorem exists_row (hv : s.IsDatum v) : ∃ row, s.Row row ∧ v ∈ row := by
  classical
  let constants : List Value := [.nil, .boolean false, .boolean true, .emptySequence]
  let others := ((v :: s.stored).filter fun w =>
    (∃ path, s.LeadsTo v path w) ∧ w ∉ constants).dedup
  have hothers {w : Value} : w ∈ others ↔ (∃ path, s.LeadsTo v path w) ∧ w ∉ constants := by
    simp only [others, List.mem_dedup, List.mem_filter, decide_eq_true_eq, List.mem_cons]
    exact ⟨And.right, fun hw => ⟨hw.1.elim fun _ hpath => hpath.eq_or_mem_stored, hw⟩⟩
  have hmem {path : List Selector} {w : Value} (hpath : s.LeadsTo v path w) :
      w ∈ constants ++ others := by
    by_cases hw : w ∈ constants
    · exact List.mem_append_left _ hw
    · exact List.mem_append_right _ (hothers.mpr ⟨⟨path, hpath⟩, hw⟩)
  -- Only the values that the datum leads to can be pairs and vectors.
  have hreached {w : Value} (hw : w ∈ constants ++ others) (hne : w ∉ constants) :
      ∃ path, s.LeadsTo v path w :=
    (hothers.mp ((List.mem_append.mp hw).resolve_left hne)).1
  refine ⟨constants ++ others, ⟨List.prefix_append .., ?_, fun w hw => ?_, fun r hr => ?_,
    fun r hr => ?_⟩, hmem (.here v)⟩
  · refine List.nodup_append.mpr ⟨by decide, List.nodup_dedup _, fun w hw w' hw' heq => ?_⟩
    exact (hothers.mp hw').2 (heq ▸ hw)
  · rcases List.mem_append.mp hw with hconstant | hw
    · have hall : ∀ w ∈ constants, w.IsData := by simp [constants, Value.IsData]
      exact hall w hconstant
    · obtain ⟨⟨path, hpath⟩, -⟩ := hothers.mp hw
      exact (hv path w hpath).1
  · obtain ⟨path, hpath⟩ := hreached hr (by simp [constants])
    have hlt : r < s.cells.size := (hv path _ hpath).2 _ rfl
    have hcell := Array.getElem?_eq_getElem hlt
    exact ⟨_, hcell, hmem (hpath.append (.car hcell (.here _))),
      hmem (hpath.append (.cdr hcell (.here _)))⟩
  · obtain ⟨path, hpath⟩ := hreached hr (by simp [constants])
    have hlt : r < s.vectors.size := (hv path _ hpath).2 _ rfl
    have hitems := Array.getElem?_eq_getElem hlt
    refine ⟨_, hitems, fun w hw => ?_⟩
    obtain ⟨i, hi⟩ := List.getElem?_of_mem hw
    exact hmem (hpath.append (.item hitems hi (.here _)))

/-- Each datum of a store represents an object of a well-formed heap. -/
theorem exists_represents (s : Store) (v : Value) (hv : s.IsDatum v) :
    ∃ (h : Heap) (ρ : Address → Value) (a : Address), h.WellFormed ∧ a < h.objects.size ∧
      h.Represents s ρ ∧ ρ a = v := by
  obtain ⟨row, hrow, hmem⟩ := exists_row hv
  refine ⟨s.heapOf row, fun a => row.getD a .nil, row.idxOf v, hrow.wellFormed, ?_,
    hrow.represents, Row.getD_idxOf hmem⟩
  simpa [heapOf] using List.idxOf_lt_length_of_mem hmem

end Store

end MiniScheme
