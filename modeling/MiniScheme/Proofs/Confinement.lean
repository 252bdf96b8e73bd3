import MiniScheme.Proofs.Discipline
import MiniScheme.Proofs.Loading
import MiniScheme.Proofs.References

/-!
# `MiniScheme.Proofs.Confinement`: runs that stay inside

A run gets at objects by following references, and it stores no reference
that it does not have. So it never leaves a set of objects that it starts
in, if no object inside refers to one outside, and if what it makes counts
as inside.

A `Confinement` is such a set, which may depend on the store and grow with
it. `Confinement.discipline` is the general statement about runs. It is used
with the objects that are there (`MiniScheme.Proofs.Soundness`) and with
those that a run can reach or makes (`MiniScheme.Proofs.Footprint`).
-/

set_option autoImplicit false

namespace MiniScheme

theorem Value.object?_of_isAtom {v : Value} (h : v.IsAtom) : v.object? = none := by
  cases v with
  | pair | vector | closure | primitive => exact h.elim
  | _ => rfl

/-- A set of objects that no reference leads out of, whichever object inside
is changed and whatever is made. -/
structure Confinement (World : Type) [Preorder World] where
  store : World → Store
  Inside : World → Object → Prop
  inside_mono {w w' : World} {o : Object} : w ≤ w' → Inside w o → Inside w' o
  closed {w : World} {o o' : Object} : Inside w o → o' ∈ (store w).parts o → Inside w o'
  change {w : World} {t : Store} {o : Object} : (store w).Changes t o → o.IsMutable →
    Inside w o → (∀ o' ∈ t.parts o, Inside w o') → ∃ w', w ≤ w' ∧ store w' = t
  extend {w : World} {t : Store} {o : Object} : (store w).Adds t o →
    (∀ o' ∈ t.parts o, Inside w o') → ∃ w', w ≤ w' ∧ store w' = t ∧ Inside w' o
  newString {w : World} (text : String) : ∃ w', w ≤ w' ∧ store w' = ((store w).newString text).2

namespace Confinement

variable {World : Type} [Preorder World] (C : Confinement World) {w : World}

/-- The value refers to nothing outside. -/
def Contains (w : World) (v : Value) : Prop := ∀ o, v.object? = some o → C.Inside w o

variable {C} in
theorem Contains.mono {w' : World} {v : Value} (h : C.Contains w v) (hle : w ≤ w') :
    C.Contains w' v :=
  fun o ho => C.inside_mono hle (h o ho)

/-- All values and environments are inside. -/
def demand : Demand World where
  store := C.store
  Holds w _ v := C.Contains w v
  Visible w env := C.Inside w (.frame env)
  Body w v := C.Contains w v
  Reads _ _ := True
  holds_mono hle h := h.mono hle
  visible_mono hle h := C.inside_mono hle h
  body_mono hle h := h.mono hle

variable {C}

theorem next {w' : World} (hle : w ≤ w') : C.demand.Next w w' := ⟨hle, fun _ _ => trivial⟩

theorem contains_of_isAtom {v : Value} (h : v.IsAtom) : C.Contains w v := by
  intro o ho
  rw [Value.object?_of_isAtom h] at ho
  cases ho

/-! ### Variables -/

/-- Lookup walks along frames that are inside. -/
theorem inside_of_mem_chainFrom {r : Ref} (fuel : Nat) :
    ∀ {env : Ref}, C.Inside w (.frame env) → r ∈ (C.store w).chainFrom fuel (some env) →
      C.Inside w (.frame r) := by
  induction fuel with
  | zero => intro env _ hr; exact absurd hr List.not_mem_nil
  | succ fuel ih =>
      intro env henv hr
      unfold Store.chainFrom at hr
      cases hf : (C.store w).frames[env]? with
      | none =>
          rw [hf] at hr
          exact absurd hr List.not_mem_nil
      | some f =>
          rw [hf] at hr
          rcases List.mem_cons.mp hr with rfl | hr
          · exact henv
          · cases houter : f.outer with
            | none =>
                rw [houter] at hr
                cases fuel <;> exact absurd hr List.not_mem_nil
            | some q =>
                -- The frame around it is one of its references.
                rw [houter] at hr
                have hq : Object.frame q ∈ (C.store w).parts (.frame env) :=
                  (Store.mem_parts_frame hf).mpr (.inr ⟨q, houter, rfl⟩)
                exact ih (C.closed henv hq) hr

theorem inside_of_mem_chain {env r : Ref} (henv : C.Inside w (.frame env))
    (h : r ∈ (C.store w).chain env) : C.Inside w (.frame r) :=
  inside_of_mem_chainFrom _ henv h

theorem contains_of_lookup? {env : Ref} {name : String} {v : Value}
    (henv : C.Inside w (.frame env)) (h : (C.store w).lookup? env name = some v) :
    C.Contains w v := by
  obtain ⟨r, f, hr, hf, hmem⟩ := Store.lookup?_eq_some h
  intro o ho
  exact C.closed (inside_of_mem_chain henv hr)
    ((Store.mem_parts_frame hf).mpr (.inl ⟨(name, v), hmem, ho⟩))

/-! ### New objects -/

theorem cons {a d : Value} (ha : C.Contains w a) (hd : C.Contains w d) :
    ∃ w', w ≤ w' ∧ C.store w' = ((C.store w).cons a d).2 ∧
      C.Contains w' ((C.store w).cons a d).1 := by
  obtain ⟨w', hle, hstore, hnew⟩ := C.extend ((C.store w).adds_cons a d) fun o ho =>
    ((Store.mem_parts_cell Array.getElem?_push_size).mp ho).elim (ha o) (hd o)
  exact ⟨w', hle, hstore, fun _ ho => Option.some.inj ho ▸ hnew⟩

theorem newVector {items : List Value} (h : ∀ v ∈ items, C.Contains w v) :
    ∃ w', w ≤ w' ∧ C.store w' = ((C.store w).newVector items).2 ∧
      C.Contains w' ((C.store w).newVector items).1 := by
  obtain ⟨w', hle, hstore, hnew⟩ := C.extend ((C.store w).adds_newVector items) fun o ho => by
    obtain ⟨v, hv, ho⟩ := (Store.mem_parts_vector Array.getElem?_push_size).mp ho
    exact h v hv o ho
  exact ⟨w', hle, hstore, fun _ ho => Option.some.inj ho ▸ hnew⟩

theorem newClosure {k : Closure} (hformals : C.Contains w k.formals)
    (hbody : C.Contains w k.body) (hframe : C.Inside w (.frame k.frame)) :
    ∃ w', w ≤ w' ∧ C.store w' = ((C.store w).newClosure k).2 ∧
      C.Contains w' ((C.store w).newClosure k).1 := by
  obtain ⟨w', hle, hstore, hnew⟩ := C.extend ((C.store w).adds_newClosure k) fun o ho => by
    rcases (Store.mem_parts_closure Array.getElem?_push_size).mp ho with (ho | ho) | rfl
    · exact hformals o ho
    · exact hbody o ho
    · exact hframe
  exact ⟨w', hle, hstore, fun _ ho => Option.some.inj ho ▸ hnew⟩

theorem newFrame {bindings : List (String × Value)} {outer : Ref}
    (hbindings : ∀ b ∈ bindings, C.Contains w b.2) (houter : C.Inside w (.frame outer)) :
    ∃ w', w ≤ w' ∧ C.store w' = ((C.store w).newFrame ⟨bindings, some outer⟩).2 ∧
      C.Inside w' (.frame ((C.store w).newFrame ⟨bindings, some outer⟩).1) := by
  refine C.extend ((C.store w).adds_newFrame _) fun o ho => ?_
  rcases (Store.mem_parts_frame Array.getElem?_push_size).mp ho with ⟨b, hb, ho⟩ | ⟨q, hq, rfl⟩
  · exact hbindings b hb o ho
  · cases hq
    exact houter

theorem loadItems_of_forall {ds : List Datum}
    (h : ∀ d ∈ ds, ∀ w, ∃ w', w ≤ w' ∧ C.store w' = ((C.store w).load d).2 ∧
      C.Contains w' ((C.store w).load d).1) :
    ∀ w, ∃ w', w ≤ w' ∧ C.store w' = (Store.loadItems [] ds (C.store w)).2 ∧
      ∀ v ∈ (Store.loadItems [] ds (C.store w)).1, C.Contains w' v := by
  induction ds with
  | nil => intro w; exact ⟨w, le_refl w, rfl, fun _ hv => absurd hv List.not_mem_nil⟩
  | cons d ds ih =>
      intro w
      obtain ⟨w₁, hle₁, hstore₁, hfirst⟩ := h d List.mem_cons_self w
      obtain ⟨w₂, hle₂, hstore₂, hrest⟩ := ih (fun e he => h e (List.mem_cons_of_mem d he)) w₁
      rw [hstore₁] at hstore₂ hrest
      rw [Store.loadItems_cons]
      refine ⟨w₂, hle₁.trans hle₂, hstore₂, fun v hv => ?_⟩
      rcases List.mem_cons.mp hv with rfl | hv
      · exact hfirst.mono hle₂
      · exact hrest v hv

/-- Loading only makes objects that refer to each other. -/
theorem load (d : Datum) : ∀ w, ∃ w', w ≤ w' ∧ C.store w' = ((C.store w).load d).2 ∧
    C.Contains w' ((C.store w).load d).1 := by
  induction d using Datum.treeInduction with
  | number | symbol | boolean | nil =>
      intro w
      exact ⟨w, le_refl w, rfl, contains_of_isAtom trivial⟩
  | text t =>
      intro w
      obtain ⟨w', hle, hstore⟩ := C.newString (w := w) t
      exact ⟨w', hle, hstore, contains_of_isAtom trivial⟩
  | pair car cdr ihcar ihcdr =>
      intro w
      rw [Store.load_pair]
      obtain ⟨w₁, hle₁, hstore₁, hcar⟩ := ihcar w
      obtain ⟨w₂, hle₂, hstore₂, hcdr⟩ := ihcdr w₁
      rw [hstore₁] at hstore₂ hcdr
      -- What is inside stays inside while the second part is loaded.
      obtain ⟨w₃, hle₃, hstore₃, hnew⟩ := cons (hcar.mono hle₂) hcdr
      rw [hstore₂] at hstore₃ hnew
      exact ⟨w₃, (hle₁.trans hle₂).trans hle₃, hstore₃, hnew⟩
  | vector items ih =>
      intro w
      rw [Store.load_vector]
      obtain ⟨w₁, hle₁, hstore₁, hitems⟩ := loadItems_of_forall ih w
      rw [← hstore₁]
      obtain ⟨w₂, hle₂, hstore₂, hnew⟩ := newVector hitems
      exact ⟨w₂, hle₁.trans hle₂, hstore₂, hnew⟩

/-! ### Runs -/

/-- No operation leads outside. -/
def discipline (C : Confinement World) : Discipline World where
  toDemand := C.demand
  atom h := contains_of_isAtom h
  constant _ h := h
  car {w _ r c} hc hpair o ho :=
    C.closed (hpair (.cell r) rfl) ((Store.mem_parts_cell hc).mpr (.inl ho))
  cdr {w _ r c} hc hpair o ho :=
    C.closed (hpair (.cell r) rfl) ((Store.mem_parts_cell hc).mpr (.inr ho))
  body _ h := h
  operands h := h
  closure {w r k} hk hclosure := by
    have hparts (o : Object) (ho : o ∈ (C.store w).parts (.closure r)) : C.Inside w o :=
      C.closed (hclosure _ rfl) ho
    exact ⟨fun o ho => hparts o ((Store.mem_parts_closure hk).mpr (.inl (.inr ho))),
      hparts _ ((Store.mem_parts_closure hk).mpr (.inr rfl))⟩
  lookup h henv := contains_of_lookup? henv h
  -- What is changed keeps its references, but for those of the new value.
  assign {w env r name v} h henv hv := by
    have hr := inside_of_mem_chain henv (List.mem_of_find?_eq_some h)
    obtain ⟨w', hle, hstore⟩ := C.change ((C.store w).changes_bind r name v) trivial hr
      fun o ho => (Store.mem_parts_bind ho).elim (hv o) (C.closed hr)
    exact ⟨w', next hle, hstore⟩
  cons ha hd := by
    obtain ⟨w', hle, hnew⟩ := cons ha hd
    exact ⟨w', next hle, hnew⟩
  setCar {w r v} hr hv := by
    obtain ⟨w', hle, hstore⟩ := C.change ((C.store w).changes_modifyCell r _) trivial (hr _ rfl)
      fun o ho => (Store.mem_parts_setCar ho).elim (hv o) (C.closed (hr _ rfl))
    exact ⟨w', next hle, hstore⟩
  setCdr {w r v} hr hv := by
    obtain ⟨w', hle, hstore⟩ := C.change ((C.store w).changes_modifyCell r _) trivial (hr _ rfl)
      fun o ho => (Store.mem_parts_setCdr ho).elim (hv o) (C.closed (hr _ rfl))
    exact ⟨w', next hle, hstore⟩
  newClosure hformals hbody hframe := by
    obtain ⟨w', hle, hnew⟩ := newClosure hformals hbody hframe
    exact ⟨w', next hle, hnew⟩
  newFrame hbindings houter := by
    obtain ⟨w', hle, hnew⟩ := newFrame hbindings houter
    exact ⟨w', next hle, hnew⟩
  load {w _ d} _ _ := by
    obtain ⟨w', hle, hstore, hnew⟩ := load d w
    exact ⟨w', hle, hstore, hnew, trivial⟩

end Confinement

end MiniScheme
