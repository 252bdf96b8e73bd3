import Mathlib.Data.Nat.Find
import MiniScheme.Proofs.Loading
import MiniScheme.Proofs.References
import MiniScheme.Proofs.Spine

/-!
# `MiniScheme.Proofs.Parameters`: pairing parameters with values

Entering a closure pairs its parameters with values in one pass that checks
and binds at the same time. This file separates the two. What is wrong with
parameters can be told position by position, before anything is bound:
`s.parameterFault?` is about one parameter, `s.endFault?` about what the
parameters end in. Without a fault all parameters are symbols with a value
each (`Fits`), and then the new frame is described by `s.Paired`.

The main fact, `extend_pairs`, says that `extend` reports the first of these
faults and otherwise makes that frame. It assumes only that the parameters
have an end. The pass itself is opened once, in `pairFormals_symbols`: it
takes symbols one by one and the values with them, up to the place where it
stops.
-/

set_option autoImplicit false

namespace MiniScheme

/-! ### Names bound in order -/

namespace Frame

/-- Binds names to values, one after the other. -/
def insertAll : List String → List Value → List (String × Value) → List (String × Value)
  | name :: names, v :: values, bindings => insertAll names values (insert name v bindings)
  | _, _, bindings => bindings

variable {names : List String} {values : List Value} {bindings : List (String × Value)}
  {name : String} {v : Value}

theorem nodup_insert (h : (bindings.map Prod.fst).Nodup) (name : String) (v : Value) :
    ((insert name v bindings).map Prod.fst).Nodup := by
  induction bindings with
  | nil => simp [insert]
  | cons b rest ih =>
      obtain ⟨other, w⟩ := b
      by_cases hname : other = name
      · subst hname
        rw [insert, if_pos rfl]
        exact h
      · rw [List.map_cons, List.nodup_cons] at h
        rw [insert, if_neg hname, List.map_cons, List.nodup_cons]
        refine ⟨fun hmem => ?_, ih h.2⟩
        exact ((mem_names_insert v).mp hmem).elim hname h.1

theorem nodup_insertAll (h : (bindings.map Prod.fst).Nodup) :
    ((insertAll names values bindings).map Prod.fst).Nodup := by
  induction names generalizing values bindings with
  | nil => exact h
  | cons name names ih =>
      cases values with
      | nil => exact h
      | cons v values => exact ih (nodup_insert h name v)

theorem mem_names_insertAll (hlen : values.length = names.length) :
    name ∈ (insertAll names values bindings).map Prod.fst ↔
      name ∈ names ∨ name ∈ bindings.map Prod.fst := by
  induction names generalizing values bindings with
  | nil => simp [insertAll]
  | cons first names ih =>
      cases values with
      | nil => cases hlen
      | cons v values =>
          rw [insertAll, ih (Nat.succ.inj hlen), mem_names_insert, List.mem_cons, or_left_comm,
            or_assoc]

theorem lookup_insertAll_of_notMem (h : name ∉ names) :
    (insertAll names values bindings).lookup name = bindings.lookup name := by
  induction names generalizing values bindings with
  | nil => rfl
  | cons first names ih =>
      rw [List.mem_cons, not_or] at h
      cases values with
      | nil => rfl
      | cons v values => rw [insertAll, ih h.2, lookup_insert_of_ne h.1]

/-- Of several values the last one counts. -/
theorem lookup_insertAll {i : Nat} (hname : names[i]? = some name) (hvalue : values[i]? = some v)
    (hlast : ∀ j, i < j → names[j]? ≠ some name) :
    (insertAll names values bindings).lookup name = some v := by
  induction names generalizing values bindings i with
  | nil => cases hname
  | cons first names ih =>
      cases values with
      | nil => cases hvalue
      | cons w values =>
          cases i with
          | zero =>
              obtain rfl : first = name := Option.some.inj hname
              obtain rfl : w = v := Option.some.inj hvalue
              have hmem : first ∉ names := fun hmem => by
                obtain ⟨j, hj⟩ := List.mem_iff_getElem?.mp hmem
                exact hlast (j + 1) (Nat.succ_pos j) hj
              rw [insertAll, lookup_insertAll_of_notMem hmem, lookup_insert_self]
          | succ i =>
              exact ih hname hvalue fun j hj => hlast (j + 1) (Nat.succ_lt_succ hj)

end Frame

/-! ### Lists of what is left -/

namespace Store

/-- In the second store the value is a proper list of these elements, made of
pairs that the first one does not have. -/
inductive NewList (s t : Store) : Value → List Value → Prop
  | nil : NewList s t .nil []
  | cons {r : Ref} {c : Cell} {items : List Value} (fresh : ¬s.Has (.cell r))
      (cell : t.cells[r]? = some c) (rest : NewList s t c.cdr items) :
      NewList s t (.pair r) (c.car :: items)

variable {s t u : Store} {v : Value} {items : List Value}

theorem NewList.mono (h : NewList s t v items)
    (hcells : ∀ {r : Ref} {c : Cell}, t.cells[r]? = some c → u.cells[r]? = some c) :
    NewList s u v items := by
  induction h with
  | nil => exact .nil
  | cons fresh cell _ ih => exact .cons fresh (hcells cell) ih

theorem list_cons (s : Store) (v : Value) (items : List Value) (tail : Value) :
    s.list (v :: items) tail = (s.list items tail).2.cons v (s.list items tail).1 := by
  simp [list, consAll]

/-- Making a list adds its pairs and touches nothing else. -/
theorem list_spec (s : Store) (items : List Value) :
    s.NewList (s.list items .nil).2 (s.list items .nil).1 items ∧
    (∀ o, s.Has o → (s.list items .nil).2.Has o ∧ s.Same (s.list items .nil).2 o) ∧
    (s.list items .nil).2.frames = s.frames := by
  induction items with
  | nil => exact ⟨.nil, fun o ho => ⟨ho, .refl s o⟩, rfl⟩
  | cons v items ih =>
      obtain ⟨hlist, hkept, hframes⟩ := ih
      rw [list_cons]
      have hadds := adds_cons (s.list items .nil).2 v (s.list items .nil).1
      refine ⟨?_, fun o ho => ⟨hadds.has o (hkept o ho).1, ?_⟩, hframes⟩
      · exact .cons (c := ⟨v, _⟩) (fun h => hadds.fresh (hkept _ h).1) Array.getElem?_push_size
          (hlist.mono (getElem?_push_of_some _))
      · exact (hkept o ho).2.trans (hadds.kept (hkept o ho).1)

/-! ### What can be wrong with parameters -/

/-- What is wrong with the parameter at place `i`, counted from 0, if there
are `k` parameters and `n` values: it is no symbol, or no value is left for
it. -/
def parameterFault? (s : Store) (depth k n i : Nat) : Value → Option Fault
  | .symbol _ => if i < n then none else some (.arity "too few values" (some k) (some n))
  | f => some (s.complaint depth .parameter f)

/-- What is wrong with the end of the parameters if each of them has a
value: it takes no values and some are left, or it is no end at all. -/
def endFault? (s : Store) (depth : Nat) (formals : Value) (k n : Nat) : Value → Option Fault
  | .nil => if k < n then some (.arity "too many values" (some k) (some n)) else none
  | .symbol _ => none
  | _ => some (s.complaint depth .parameterList formals)

end Store

/-- The parameters are symbols, and there is a value for each of them, and no
more unless the parameters end in another symbol. -/
def Fits (fs : List Value) (last : Value) (n : Nat) : Prop :=
  (∀ f ∈ fs, ∃ name, f = .symbol name) ∧
    ((last = .nil ∧ n = fs.length) ∨ ((∃ name, last = .symbol name) ∧ fs.length ≤ n))

/-- The first fault of the parameters in their order, their end after all of
them. -/
inductive Store.FirstFault (s : Store) (depth : Nat) (formals : Value) (fs : List Value)
    (last : Value) (n : Nat) : Fault → Prop
  | parameter {i : Nat} {f : Value} {fault : Fault} (place : fs[i]? = some f)
      (wrong : s.parameterFault? depth fs.length n i f = some fault)
      (before : ∀ j < i, ∀ g, fs[j]? = some g → s.parameterFault? depth fs.length n j g = none) :
      FirstFault s depth formals fs last n fault
  | ending {fault : Fault}
      (before : ∀ j g, fs[j]? = some g → s.parameterFault? depth fs.length n j g = none)
      (wrong : s.endFault? depth formals fs.length n last = some fault) :
      FirstFault s depth formals fs last n fault

/-- The second store has one new frame, inside `env`, where the parameters
have their values: each name the value at its last place, and a symbol at the
end all values that are left, whatever it was before. Everything else is as
it was in the first store. -/
structure Store.Paired (s t : Store) (env : Ref) (fs : List Value) (last : Value)
    (values : List Value) (f : Frame) : Prop where
  frames : t.frames = s.frames.push f
  outer : f.outer = some env
  names : ∀ name, name ∈ f.bindings.map Prod.fst ↔ Value.symbol name ∈ fs ∨ last = .symbol name
  nodup : (f.bindings.map Prod.fst).Nodup
  fixed : ∀ (i : Nat) (name : String), fs[i]? = some (.symbol name) →
    (∀ j, i < j → fs[j]? ≠ some (.symbol name)) →
    last ≠ .symbol name → ∃ v, values[i]? = some v ∧ f.value? name = some v
  rest : ∀ name, last = .symbol name →
    ∃ v, f.value? name = some v ∧ s.NewList t v (values.drop fs.length)
  kept : ∀ o, s.Has o → s.Same t o

theorem Store.parameterFault?_eq_none_iff {s : Store} {depth k n i : Nat} {f : Value} :
    s.parameterFault? depth k n i f = none ↔ (∃ name, f = .symbol name) ∧ i < n := by
  cases f with
  | symbol name => simp [parameterFault?]
  | _ => simp [parameterFault?]

/-- Values that are all symbols are those of a list of names. -/
theorem exists_names {fs : List Value} (h : ∀ f ∈ fs, ∃ name, f = .symbol name) :
    ∃ names : List String, fs = names.map .symbol := by
  induction fs with
  | nil => exact ⟨[], rfl⟩
  | cons f fs ih =>
      obtain ⟨name, rfl⟩ := h f List.mem_cons_self
      obtain ⟨names, rfl⟩ := ih fun g hg => h g (List.mem_cons_of_mem _ hg)
      exact ⟨name :: names, rfl⟩

/-! ### The pass -/

section Pass

variable {depth : Nat} {formals p last : Value} {count paired : Nat}
  {bindings : List (String × Value)} {values : List Value} {m : Machine}

/-- A parameter that is a symbol is bound to the first value. -/
theorem pairFormals_symbol {c : Cell} {name : String} {v : Value} (hcell : m.store.cell? p = some c)
    (hcar : c.car = .symbol name) :
    pairFormals depth formals count paired bindings p (v :: values) m
      = pairFormals depth formals count (paired + 1) (Frame.insert name v bindings) c.cdr
          values m := by
  conv_lhs => rw [pairFormals.eq_def]
  dsimp only
  rw [inquire_bind_run, hcell]
  dsimp only
  rw [hcar]

/-- Symbols are bound one by one, as long as there are values. -/
theorem pairFormals_symbols (depth : Nat) (formals : Value) (count : Nat) (values : List Value)
    {names : List String} {tail : List Value} :
    ∀ (paired : Nat) (bindings : List (String × Value)) (p : Value) (vs : List Value),
      vs.length = names.length → m.store.Spine p (names.map .symbol ++ tail) last →
      ∃ q, m.store.Spine q tail last ∧
        pairFormals depth formals count paired bindings p (vs ++ values) m
          = pairFormals depth formals count (paired + names.length)
              (Frame.insertAll names vs bindings) q values m := by
  -- The count, the bindings and the place all move on, so they stay general.
  induction names with
  | nil =>
      intro paired bindings p vs hlen hspine
      obtain rfl := List.eq_nil_of_length_eq_zero hlen
      exact ⟨p, hspine, rfl⟩
  | cons name names ih =>
      intro paired bindings p vs hlen hspine
      cases vs with
      | nil => cases hlen
      | cons v vs =>
          generalize hitems : (name :: names).map Value.symbol ++ tail = items at hspine
          cases hspine with
          | last => cases hitems
          | @link _ _ c _ cell rest =>
              obtain ⟨hcar, rfl⟩ := List.cons.inj hitems
              obtain ⟨q, hq, hrun⟩ := ih (paired + 1) (Frame.insert name v bindings) c.cdr vs
                (Nat.succ.inj hlen) rest
              refine ⟨q, hq, ?_⟩
              rw [List.cons_append, pairFormals_symbol cell hcar.symm, hrun, List.length_cons,
                Nat.add_right_comm, Nat.add_assoc]
              rfl

/-- The pass stops at a parameter with a fault and reports it. -/
theorem pairFormals_of_parameterFault {f : Value} {tail : List Value} {fault : Fault}
    (hspine : m.store.Spine p (f :: tail) last) (hcount : count = paired + values.length)
    (hfault : m.store.parameterFault? depth (paired + (tail.length + 1)) count paired f
      = some fault) :
    pairFormals depth formals count paired bindings p values m = .error fault m := by
  generalize hitems : f :: tail = items at hspine
  cases hspine with
  | last => cases hitems
  | @link _ _ c _ cell rest =>
      obtain ⟨rfl, rfl⟩ := List.cons.inj hitems
      rw [pairFormals.eq_def]
      dsimp only
      rw [inquire_bind_run, cell]
      dsimp only
      cases hcar : c.car with
      | symbol name =>
          rw [hcar] at hfault
          simp only [Store.parameterFault?] at hfault
          split at hfault
          · cases hfault
          · -- The missing parameters are counted from this one on.
            obtain rfl : values = [] := List.eq_nil_of_length_eq_zero (by omega)
            cases hfault
            have hwhole : m.store.Spine p (c.car :: tail) last := .link cell rest
            dsimp only
            rw [bind_run_ok (spine_run (Store.spine?_eq_some_iff.mpr hwhole))]
            rfl
      | _ =>
          rw [hcar] at hfault
          cases hfault
          exact failShowing_run _ _ _ _

/-- The pass stops at an end with a fault and reports it. -/
theorem pairFormals_of_endFault {fault : Fault} (hcell : m.store.cell? p = none)
    (hcount : count = paired + values.length)
    (hfault : m.store.endFault? depth formals paired count p = some fault) :
    pairFormals depth formals count paired bindings p values m = .error fault m := by
  rw [pairFormals.eq_def]
  dsimp only
  rw [inquire_bind_run, hcell]
  cases p with
  | nil =>
      simp only [Store.endFault?] at hfault
      split at hfault
      · cases hfault
        have hsome : values.isEmpty = false := by
          cases values with
          | nil => simp at hcount; omega
          | cons => rfl
        dsimp only
        rw [hsome]
        rfl
      · cases hfault
  | symbol name => cases hfault
  | _ =>
      cases hfault
      exact failShowing_run _ _ _ _

/-- An empty list ends parameters that have taken all values. -/
theorem pairFormals_nil :
    pairFormals depth formals count paired bindings .nil [] m = .ok bindings m := by
  rw [pairFormals.eq_def]
  rfl

/-- A symbol at the end takes all values that are left. -/
theorem pairFormals_rest (name : String) :
    pairFormals depth formals count paired bindings (.symbol name) values m
      = .ok (Frame.insert name (m.store.list values .nil).1 bindings)
          { m with store := (m.store.list values .nil).2 } := by
  rw [pairFormals.eq_def]
  rfl

end Pass

/-! ### The verdict -/

section Verdict

variable {depth n : Nat} {s : Store} {formals last : Value} {fs : List Value}

/-- Parameters before a place that have no fault are symbols with a value
each. -/
theorem exists_names_take {i : Nat} (hi : i ≤ fs.length)
    (h : ∀ j < i, ∀ g, fs[j]? = some g → s.parameterFault? depth fs.length n j g = none) :
    i ≤ n ∧ ∃ names : List String, names.length = i ∧ fs.take i = names.map .symbol := by
  have hclear : ∀ j < i, ∀ g, fs[j]? = some g → (∃ name, g = .symbol name) ∧ j < n :=
    fun j hj g hg => Store.parameterFault?_eq_none_iff.mp (h j hj g hg)
  constructor
  · cases i with
    | zero => exact Nat.zero_le n
    | succ j => exact (hclear j (Nat.lt_succ_self j) _ (List.getElem?_eq_getElem hi)).2
  · obtain ⟨names, hnames⟩ : ∃ names : List String, fs.take i = names.map .symbol := by
      refine exists_names fun f hf => ?_
      obtain ⟨j, hj⟩ := List.mem_iff_getElem?.mp hf
      rw [List.getElem?_take] at hj
      split at hj
      · rename_i hlt
        exact (hclear j hlt f hj).1
      · cases hj
    have hlen := congrArg List.length hnames
    rw [List.length_take, List.length_map, Nat.min_eq_left hi] at hlen
    exact ⟨names, hlen.symm, hnames⟩

theorem exists_names_of_forall
    (h : ∀ j g, fs[j]? = some g → s.parameterFault? depth fs.length n j g = none) :
    fs.length ≤ n ∧ ∃ names : List String, fs = names.map .symbol := by
  obtain ⟨hle, names, -, hnames⟩ := exists_names_take (Nat.le_refl _) fun j _ => h j
  exact ⟨hle, names, by rwa [List.take_length] at hnames⟩

/-- Parameters fit, or have a first fault. -/
theorem fits_or_firstFault (s : Store) (depth : Nat) (formals last : Value) (fs : List Value)
    (n : Nat) : Fits fs last n ∨ ∃ fault, s.FirstFault depth formals fs last n fault := by
  classical
  -- The least place with a fault comes first; the end counts if there is none.
  by_cases hwrong : ∃ i f, fs[i]? = some f ∧ s.parameterFault? depth fs.length n i f ≠ none
  · right
    obtain ⟨f, hf, hfault⟩ := Nat.find_spec hwrong
    obtain ⟨fault, hfault⟩ := Option.ne_none_iff_exists'.mp hfault
    refine ⟨fault, .parameter hf hfault fun j hj g hg => ?_⟩
    by_contra hne
    exact Nat.find_min hwrong hj ⟨g, hg, hne⟩
  · have hclear : ∀ j g, fs[j]? = some g → s.parameterFault? depth fs.length n j g = none := by
      intro j g hg
      by_contra hne
      exact hwrong ⟨j, g, hg, hne⟩
    obtain ⟨hle, names, rfl⟩ := exists_names_of_forall hclear
    have hsymbols : ∀ f ∈ names.map Value.symbol, ∃ name, f = .symbol name := by
      intro f hf
      obtain ⟨name, -, rfl⟩ := List.mem_map.mp hf
      exact ⟨name, rfl⟩
    cases last with
    | nil =>
        by_cases hmany : (names.map Value.symbol).length < n
        · exact .inr ⟨_, .ending hclear (if_pos hmany)⟩
        · exact .inl ⟨hsymbols, .inl ⟨rfl, Nat.le_antisymm (Nat.le_of_not_lt hmany) hle⟩⟩
    | symbol name => exact .inl ⟨hsymbols, .inr ⟨⟨name, rfl⟩, hle⟩⟩
    | _ => exact .inr ⟨_, .ending hclear rfl⟩

variable {env : Ref} {values : List Value} {m : Machine}

/-- The pass over all parameters, up to the place where the symbols that have
values end. -/
theorem pairFormals_names (depth : Nat) {names : List String} {tail : List Value}
    (hspine : m.store.Spine formals (names.map .symbol ++ tail) last)
    (hle : names.length ≤ values.length) :
    ∃ q, m.store.Spine q tail last ∧
      pairFormals depth formals values.length 0 [] formals values m
        = pairFormals depth formals values.length names.length
            (Frame.insertAll names (values.take names.length) []) q
            (values.drop names.length) m := by
  have htaken : (values.take names.length).length = names.length := by
    rw [List.length_take, Nat.min_eq_left hle]
  obtain ⟨q, hq, hrun⟩ := pairFormals_symbols depth formals values.length
    (values.drop names.length) 0 [] formals _ htaken hspine
  rw [List.take_append_drop, Nat.zero_add] at hrun
  exact ⟨q, hq, hrun⟩

theorem extend_of_firstFault {fault : Fault} (hspine : m.store.Spine formals fs last)
    (h : m.store.FirstFault depth formals fs last values.length fault) :
    extend depth env formals values m = .error fault m := by
  refine bind_run_error ?_
  -- The symbols before the fault take their values, and then the pass stops.
  cases h with
  | @parameter i f _ place wrong before =>
      obtain ⟨hi, hf⟩ := List.getElem?_eq_some_iff.mp place
      obtain ⟨hle, names, hlen, hnames⟩ := exists_names_take (Nat.le_of_lt hi) before
      have hsplit : fs = names.map .symbol ++ f :: fs.drop (i + 1) := by
        rw [← hnames, ← hf, ← List.drop_eq_getElem_cons hi, List.take_append_drop]
      rw [hsplit] at hspine
      obtain ⟨q, hq, hrun⟩ := pairFormals_names depth hspine (hlen.symm ▸ hle)
      rw [hrun, hlen]
      refine pairFormals_of_parameterFault hq ?_ ?_
      · rw [List.length_drop]
        omega
      · have hk : i + ((fs.drop (i + 1)).length + 1) = fs.length := by
          rw [List.length_drop]
          omega
        rw [hk]
        exact wrong
  | ending before wrong =>
      obtain ⟨hle, names, rfl⟩ := exists_names_of_forall before
      rw [List.length_map] at hle wrong
      rw [← List.append_nil (names.map Value.symbol)] at hspine
      obtain ⟨q, hq, hrun⟩ := pairFormals_names depth hspine hle
      cases hq with
      | last cell =>
          rw [hrun]
          refine pairFormals_of_endFault cell ?_ wrong
          rw [List.length_drop]
          omega

/-- A name among the parameters gets the value at its last place. -/
theorem lookup_insertAll_symbols {names : List String} {i : Nat} {name : String}
    (hle : names.length ≤ values.length)
    (hname : (names.map Value.symbol)[i]? = some (.symbol name))
    (hlast : ∀ j, i < j → (names.map Value.symbol)[j]? ≠ some (.symbol name)) :
    ∃ v, values[i]? = some v ∧
      (Frame.insertAll names (values.take names.length) []).lookup name = some v := by
  have hplace : ∀ j : Nat, (names.map Value.symbol)[j]? = some (Value.symbol name) ↔
      names[j]? = some name := by
    intro j
    simp
  rw [hplace] at hname
  have hi : i < names.length := (List.getElem?_eq_some_iff.mp hname).1
  have hvalue : values[i]? = some values[i] := List.getElem?_eq_getElem (Nat.lt_of_lt_of_le hi hle)
  refine ⟨_, hvalue, Frame.lookup_insertAll hname ?_ fun j hj => (hplace j).not.mp (hlast j hj)⟩
  rw [List.getElem?_take_of_lt hi, hvalue]

/-- What follows the binding only notes an event, which can be too deeply
nested to have a text. -/
theorem extend_of_pairFormals (env : Ref) {bindings : List (String × Value)} {u : Store}
    (h : pairFormals depth formals values.length 0 [] formals values m
      = .ok bindings { m with store := u }) :
    (∃ m', extend depth env formals values m = .ok u.frames.size m' ∧
      m'.store = (u.newFrame ⟨bindings, some env⟩).2) ∨
    (m.journal.isSome ∧
      (u.newFrame ⟨bindings, some env⟩).2.showFrame depth u.frames.size = .error .tooDeep ∧
      extend depth env formals values m
        = .error .tooDeep ⟨(u.newFrame ⟨bindings, some env⟩).2, m.journal⟩) := by
  rw [extend, bind_run_ok h]
  show (∃ m', (note _ >>= fun _ => pure u.frames.size)
      ⟨(u.newFrame ⟨bindings, some env⟩).2, m.journal⟩ = _ ∧ _) ∨ (_ ∧ _ ∧
    (note _ >>= fun _ => pure u.frames.size) ⟨(u.newFrame ⟨bindings, some env⟩).2, m.journal⟩ = _)
  rw [bind_run, note]
  cases m.journal with
  | none => exact .inl ⟨_, rfl, rfl⟩
  | some events =>
      dsimp only
      -- A note that fails for another reason than nesting is left out.
      cases (u.newFrame ⟨bindings, some env⟩).2.showFrame depth u.frames.size with
      | ok shown => exact .inl ⟨_, rfl, rfl⟩
      | error fault =>
          cases fault with
          | tooDeep => exact .inr ⟨rfl, rfl, rfl⟩
          | _ => exact .inl ⟨_, rfl, rfl⟩

/-- The names that are bound are those of the parameters. -/
theorem mem_names_insertAll_symbols {names : List String} (hle : names.length ≤ values.length)
    {name : String} :
    name ∈ (Frame.insertAll names (values.take names.length) []).map Prod.fst ↔
      Value.symbol name ∈ names.map Value.symbol := by
  rw [Frame.mem_names_insertAll (by rw [List.length_take, Nat.min_eq_left hle])]
  simp

/-- The frame of a proper list of parameters. -/
theorem paired_list (s : Store) {names : List String} (hall : names.length = values.length) :
    s.Paired
      (s.newFrame ⟨Frame.insertAll names (values.take names.length) [], some env⟩).2 env
      (names.map .symbol) .nil values
      ⟨Frame.insertAll names (values.take names.length) [], some env⟩ where
  frames := rfl
  outer := rfl
  names name := by
    rw [mem_names_insertAll_symbols (Nat.le_of_eq hall)]
    simp
  nodup := Frame.nodup_insertAll List.nodup_nil
  fixed i name hat hlast _ := lookup_insertAll_symbols (Nat.le_of_eq hall) hat hlast
  rest name h := by cases h
  kept o ho := (Store.adds_newFrame s _).kept ho

/-- The frame of parameters with a symbol at the end. It is bound last, so it
wins over a parameter of its name. -/
theorem paired_rest (s : Store) {names : List String} (hle : names.length ≤ values.length)
    (name : String) {v : Value} {u : Store}
    (hrest : s.list (values.drop names.length) .nil = (v, u)) :
    s.Paired
      (u.newFrame
        ⟨Frame.insert name v (Frame.insertAll names (values.take names.length) []), some env⟩).2
      env (names.map .symbol) (.symbol name) values
      ⟨Frame.insert name v (Frame.insertAll names (values.take names.length) []), some env⟩ := by
  obtain ⟨hlist, hkept, hframes⟩ := s.list_spec (values.drop names.length)
  rw [hrest] at hlist hkept hframes
  have hnodup : ((Frame.insertAll names (values.take names.length) []).map Prod.fst).Nodup :=
    Frame.nodup_insertAll List.nodup_nil
  refine ⟨?_, rfl, fun other => ?_, Frame.nodup_insert hnodup _ _,
    fun i other hat hlast hne => ?_, fun other h => ?_,
    fun o ho => (hkept o ho).2.trans ((Store.adds_newFrame _ _).kept (hkept o ho).1)⟩
  · show Array.push _ _ = _
    rw [hframes]
  · rw [Frame.mem_names_insert, mem_names_insertAll_symbols hle, or_comm]
    simp [eq_comm]
  · have hother : other ≠ name := fun h => hne (by rw [h])
    obtain ⟨v, hv, hlookup⟩ := lookup_insertAll_symbols hle hat hlast
    exact ⟨v, hv, (Frame.lookup_insert_of_ne hother _ _).trans hlookup⟩
  · obtain rfl := Value.symbol.inj h
    refine ⟨_, Frame.lookup_insert_self _ _ _, ?_⟩
    rw [List.length_map]
    exact hlist.mono id

/-- Parameters that fit are paired with the values. -/
theorem exists_paired (hspine : m.store.Spine formals fs last)
    (hfits : Fits fs last values.length) :
    ∃ bindings u, u.frames.size = m.store.frames.size ∧
      pairFormals depth formals values.length 0 [] formals values m
        = .ok bindings { m with store := u } ∧
      m.store.Paired (u.newFrame ⟨bindings, some env⟩).2 env fs last values
        ⟨bindings, some env⟩ := by
  obtain ⟨hsymbols, hcount⟩ := hfits
  obtain ⟨names, rfl⟩ := exists_names hsymbols
  rw [List.length_map] at hcount
  have hle : names.length ≤ values.length := hcount.elim (fun h => Nat.le_of_eq h.2.symm) And.right
  rw [← List.append_nil (names.map Value.symbol)] at hspine
  obtain ⟨q, hq, hrun⟩ := pairFormals_names depth hspine hle
  obtain rfl := hq.eq_last
  rcases hcount with ⟨rfl, hall⟩ | ⟨⟨name, rfl⟩, -⟩
  · rw [List.drop_eq_nil_of_le (Nat.le_of_eq hall), pairFormals_nil] at hrun
    exact ⟨_, m.store, rfl, hrun, paired_list m.store hall.symm⟩
  · rw [pairFormals_rest] at hrun
    have hframes := (m.store.list_spec (values.drop names.length)).2.2
    exact ⟨_, _, congrArg Array.size hframes, hrun, paired_rest m.store hle name rfl⟩

/-- Parameters that fit get their frame. -/
theorem extend_of_fits (hspine : m.store.Spine formals fs last)
    (hfits : Fits fs last values.length) :
    ∃ t f, m.store.Paired t env fs last values f ∧
      ((∃ m', extend depth env formals values m = .ok m.store.frames.size m' ∧ m'.store = t) ∨
        (m.journal.isSome ∧ t.showFrame depth m.store.frames.size = .error .tooDeep ∧
          extend depth env formals values m = .error .tooDeep ⟨t, m.journal⟩)) := by
  obtain ⟨bindings, u, hsize, hrun, hpaired⟩ := exists_paired hspine hfits
  have hextend := extend_of_pairFormals env hrun
  rw [hsize] at hextend
  exact ⟨_, _, hpaired, hextend⟩

end Verdict

/-- **Parameters are paired with values exactly if they fit, and else the first
fault is reported.** If the parameters `fs` end in `last`, then `extend` makes
a new frame inside `env` where they have their values, and changes nothing that
was there. The only thing that can fail then is the text of the event, if a
journal is kept: a value may be nested too deeply. Parameters that do not fit
have a first fault (there is exactly one, because it is what `extend` reports),
and nothing at all changes. -/
theorem extend_pairs {m : Machine} {formals last : Value} {fs : List Value}
    (hspine : m.store.Spine formals fs last) (depth : Nat) (env : Ref) (values : List Value) :
    (m.journal = none →
      ((∃ r m', extend depth env formals values m = .ok r m') ↔ Fits fs last values.length)) ∧
    (Fits fs last values.length → ∃ t f, m.store.Paired t env fs last values f ∧
      ((∃ m', extend depth env formals values m = .ok m.store.frames.size m' ∧ m'.store = t) ∨
        (m.journal.isSome ∧ t.showFrame depth m.store.frames.size = .error .tooDeep ∧
          extend depth env formals values m = .error .tooDeep ⟨t, m.journal⟩))) ∧
    (¬Fits fs last values.length →
      ∃ fault, m.store.FirstFault depth formals fs last values.length fault) ∧
    ∀ fault, m.store.FirstFault depth formals fs last values.length fault →
      extend depth env formals values m = .error fault m := by
  have hfaults : ¬Fits fs last values.length →
      ∃ fault, m.store.FirstFault depth formals fs last values.length fault :=
    (fits_or_firstFault m.store depth formals last fs values.length).resolve_left
  refine ⟨fun hjournal => ⟨?_, fun hfits => ?_⟩, extend_of_fits hspine, hfaults,
    fun fault => extend_of_firstFault hspine⟩
  · rintro ⟨r, m', hok⟩
    by_contra hfits
    obtain ⟨fault, hfault⟩ := hfaults hfits
    cases hok.symm.trans (extend_of_firstFault hspine hfault)
  · obtain ⟨t, f, -, ⟨m', hok, -⟩ | ⟨hkept, -⟩⟩ := extend_of_fits hspine hfits
    · exact ⟨_, m', hok⟩
    · rw [hjournal] at hkept
      cases hkept

/-- A global frame and the parameters `(a b a . b)`. -/
def doubledParameters : Machine where
  store :=
    { cells := #[⟨.symbol "a", .symbol "b"⟩, ⟨.symbol "b", .pair 0⟩, ⟨.symbol "a", .pair 1⟩]
      frames := #[⟨[], none⟩] }

theorem spine_doubledParameters : doubledParameters.store.Spine (.pair 2)
    [.symbol "a", .symbol "b", .symbol "a"] (.symbol "b") :=
  Store.spine?_eq_some_iff.mp rfl

/-- With four values `a` gets the third, and `b` a list of the fourth. With
two the third parameter has none. -/
theorem extend_pairs_doubledParameters :
    doubledParameters.store.Spine (.pair 2) [.symbol "a", .symbol "b", .symbol "a"]
      (.symbol "b") ∧
    (∃ t f, doubledParameters.store.Paired t 0 [.symbol "a", .symbol "b", .symbol "a"]
      (.symbol "b") [.nil, .nil, .boolean true, .boolean false] f ∧
      ∃ m', extend 9 0 (.pair 2) [.nil, .nil, .boolean true, .boolean false] doubledParameters
        = .ok 1 m' ∧ m'.store = t) ∧
    extend 9 0 (.pair 2) [.nil, .nil] doubledParameters
      = .error (.arity "too few values" (some 3) (some 2)) doubledParameters := by
  have hfour := extend_pairs spine_doubledParameters 9 0 [.nil, .nil, .boolean true, .boolean false]
  have htwo := extend_pairs spine_doubledParameters 9 0 [.nil, .nil]
  refine ⟨spine_doubledParameters, ?_, htwo.2.2.2 _ (.parameter (i := 2) rfl rfl ?_)⟩
  · have hfits : Fits [.symbol "a", .symbol "b", .symbol "a"] (.symbol "b") 4 :=
      ⟨by simp, .inr ⟨⟨"b", rfl⟩, by decide⟩⟩
    obtain ⟨t, f, hpaired, hrun | ⟨hkept, -⟩⟩ := hfour.2.1 hfits
    · exact ⟨t, f, hpaired, hrun⟩
    · cases hkept
  · intro j hj g hg
    match j, hj with
    | 0, _ => cases hg; rfl
    | 1, _ => cases hg; rfl

end MiniScheme
