import MiniScheme.Proofs.Analysis
import MiniScheme.Proofs.Soundness
import MiniScheme.Proofs.TwinUpdates

/-!
# `MiniScheme.Proofs.SelfTwins`: a store beside itself

Two runs may start from one store. There every object corresponds to itself
(`selfTwins`), and nothing is hidden yet. The correspondence is lawful if

* every reference leads somewhere, so that every value corresponds to itself
  (`like_selfTwins`);
* the pairs have consistent roles, so that code does the same as itself
  (`matches_selfTwins`);
* every environment ends, so that it corresponds to itself
  (`scope_selfTwins`);
* the values of the secret name are one datum.

The secret name has to have values here, so that vectors need not be opened.
-/

set_option autoImplicit false

namespace MiniScheme

/-- The role of code at the place. -/
def CodePlace.role : CodePlace → Role
  | .expression => .expression
  | .operands | .assignment => .operands
  | .abstraction => .abstraction
  | .quotation => .quotation

theorem CodePlace.role_ne_datum (place : CodePlace) : place.role ≠ .datum := by
  cases place <;> decide

theorem Form.role_place (form : Form) : form.place.role = form.operandsRole := by
  cases form <;> rfl

/-- The store on both sides. -/
def selfTwins (σ : Secret) (w : CodeWorld) : Twins σ where
  left := w.store
  right := w.store
  cells r q := r = q ∧ r < w.store.cells.size
  vectors r q := r = q ∧ r < w.store.vectors.size
  closures r q := r = q ∧ r < w.store.closures.size
  frames blurred r q := blurred = false ∧ r = q ∧ r < w.store.frames.size
  hidden _ := False
  leftCode r := r < w.store.cells.size ∧ w.roles r ≠ .datum
  rightCode r := r < w.store.cells.size ∧ w.roles r ≠ .datum

namespace Store.Sound

variable {s : Store}

theorem cell (h : s.Sound) {r : Ref} {c : Cell} (hc : s.cells[r]? = some c) :
    s.HasValue c.car ∧ s.HasValue c.cdr :=
  ⟨fun o ho => h _ o ((mem_parts_cell hc).mpr (.inl ho)),
    fun o ho => h _ o ((mem_parts_cell hc).mpr (.inr ho))⟩

theorem element (h : s.Sound) {r : Ref} {items : List Value} (hitems : s.vectors[r]? = some items)
    {v : Value} (hv : v ∈ items) : s.HasValue v :=
  fun o ho => h _ o ((mem_parts_vector hitems).mpr ⟨v, hv, ho⟩)

theorem closure (h : s.Sound) {r : Ref} {k : Closure} (hk : s.closures[r]? = some k) :
    s.HasValue k.formals ∧ s.HasValue k.body ∧ k.frame < s.frames.size :=
  ⟨fun o ho => h _ o ((mem_parts_closure hk).mpr (.inl (.inl ho))),
    fun o ho => h _ o ((mem_parts_closure hk).mpr (.inl (.inr ho))),
    h _ (.frame k.frame) ((mem_parts_closure hk).mpr (.inr rfl))⟩

theorem binding (h : s.Sound) {r : Ref} {f : Frame} (hf : s.frames[r]? = some f)
    {b : String × Value} (hb : b ∈ f.bindings) : s.HasValue b.2 :=
  fun o ho => h _ o ((mem_parts_frame hf).mpr (.inl ⟨b, hb, ho⟩))

end Store.Sound

namespace CodeWorld

variable {σ : Secret} {w : CodeWorld} {v : Value}

/-! ### Values -/

theorem like_selfTwins (hv : w.store.HasValue v) : (selfTwins σ w).Like v v := by
  cases v with
  | pair r => exact .pair ⟨rfl, hv (.cell r) rfl⟩
  | vector r => exact .vector ⟨rfl, hv (.vector r) rfl⟩
  | closure r => exact .closure ⟨rfl, hv (.closure r) rfl⟩
  | primitive r => exact .primitive r
  | _ => exact .atom trivial

theorem free_selfTwins (hv : w.Plays .datum v) : (selfTwins σ w).Free v := by
  intro r hr
  obtain ⟨hlt, hrole⟩ := hv r hr
  exact ⟨hlt, fun hcode => hcode.2 hrole⟩

theorem likeData_selfTwins (hv : w.store.HasValue v) (hdatum : w.Plays .datum v) :
    (selfTwins σ w).LikeData v v :=
  ⟨like_selfTwins hv, free_selfTwins hdatum⟩

/-! ### Code -/

/-- What is known of a pair that is code. Its fields were made before it. -/
theorem code_selfTwins {r : Ref} {role : Role} (hv : w.Plays role (.pair r))
    (hrole : role ≠ .datum) : ∃ c, (selfTwins σ w).Code r r c c ∧ c.Before r ∧
      w.Plays (role.onCar c) c.car ∧ w.Plays (role.onCdr c) c.cdr := by
  obtain ⟨hlt, rfl⟩ := hv r rfl
  have hcell : w.store.cells[r]? = some w.store.cells[r] := Array.getElem?_eq_getElem hlt
  obtain ⟨hcar, hcdr⟩ := w.cells r _ hcell
  exact ⟨_, ⟨⟨hlt, hrole⟩, ⟨hlt, hrole⟩, hcell, hcell⟩, w.descends r _ hcell hrole, hcar, hcdr⟩

/-- Parameters correspond to themselves. -/
theorem params_selfTwins (hsound : w.store.Sound) (hv : w.store.HasValue v)
    (hrole : w.Plays .inert v) : ∃ found, (selfTwins σ w).Params found v v := by
  induction hrank : v.rank using Nat.strongRecOn generalizing v with
  | ind rank ih =>
      subst hrank
      cases v with
      | pair r =>
          obtain ⟨c, hcode, hbefore, -, hcdr⟩ := code_selfTwins hrole (by decide)
          obtain ⟨hcarHas, hcdrHas⟩ := hsound.cell hcode.fields
          obtain ⟨found, hrest⟩ := ih _ (Nat.lt_succ_of_le hbefore.rank_cdr) hcdrHas hcdr rfl
          exact ⟨_, .link hcode (like_selfTwins hcarHas) hrest⟩
      | _ => exact ⟨_, .last (by rintro r ⟨⟩) (like_selfTwins hv)⟩

/-- Code does the same as itself. -/
theorem matches_selfTwins (hsound : w.store.Sound) (hv : w.store.HasValue v) (place : CodePlace)
    (hrole : w.Plays place.role v) : (selfTwins σ w).Matches false place v v := by
  induction hrank : v.rank using Nat.strongRecOn generalizing v place with
  | ind rank ih =>
      subst hrank
      cases v with
      | pair r =>
          obtain ⟨c, hcode, hbefore, hcar, hcdr⟩ := code_selfTwins hrole place.role_ne_datum
          obtain ⟨hcarHas, hcdrHas⟩ := hsound.cell hcode.fields
          have hfirst (h : w.Plays .expression c.car) :=
            ih _ (Nat.lt_succ_of_le hbefore.rank_car) hcarHas .expression h rfl
          have hrest (place : CodePlace) (h : w.Plays place.role c.cdr) :=
            ih _ (Nat.lt_succ_of_le hbefore.rank_cdr) hcdrHas place h rfl
          cases place with
          | expression =>
              cases hhead : Form.ofHead? c.car with
              | some form =>
                  simp only [CodePlace.role, Role.onCdr, hhead] at hcdr
                  rw [← form.role_place] at hcdr
                  exact .form hcode hhead hhead (hrest form.place hcdr)
              | none =>
                  simp only [CodePlace.role, Role.onCdr, hhead] at hcdr
                  exact .call hcode hhead hhead (hfirst hcar) (hrest .operands hcdr)
                    (.inl ⟨rfl, hcode.left.1⟩)
          | operands => exact .operands hcode (hfirst hcar) (hrest .operands hcdr)
          | assignment =>
              exact .assignment hcode (like_selfTwins hcarHas) (fun h => absurd h Bool.false_ne_true)
                (hrest .operands hcdr)
          | abstraction =>
              obtain ⟨found, hparams⟩ := params_selfTwins hsound hcarHas hcar
              exact .abstraction hcode (like_selfTwins hcarHas) hparams (hrest .operands hcdr)
          | quotation =>
              by_cases hnil : c.cdr = .nil
              · simp only [CodePlace.role, Role.onCar, hnil, if_true] at hcar
                exact .quotation hcode hnil hnil (likeData_selfTwins hcarHas hcar)
              · obtain ⟨found, hparams⟩ := params_selfTwins hsound hcdrHas hcdr
                exact .misquotation hcode hnil hparams
      | _ =>
          exact .leaf (by rintro r ⟨⟩) (like_selfTwins hv) fun _ h => absurd h Bool.false_ne_true

/-! ### Environments -/

/-- Environments that end correspond to themselves. -/
theorem scope_selfTwins {env : Ref} {refs : List Ref} (h : w.store.Chain env refs) :
    (selfTwins σ w).Scope false env env := by
  have htwin {r : Ref} {f : Frame} (hf : w.store.frames[r]? = some f) :
      (selfTwins σ w).frames false r r :=
    ⟨rfl, rfl, (Array.getElem?_eq_some_iff.mp hf).1⟩
  induction h with
  | outermost frame outer => exact .outermost (htwin frame) frame frame outer outer
  | inner frame outer _ ih => exact .inner (htwin frame) frame frame outer outer ih

/-! ### Laws -/

theorem biUnique_self {n : Nat} : Relator.BiUnique fun r q : Ref => r = q ∧ r < n :=
  ⟨fun _ _ _ h h' => h.1.trans h'.1.symm, fun _ _ _ h h' => h.1.symm.trans h'.1⟩

/-- The store corresponds to itself, with a secret name that has one datum for
its value. -/
theorem lawful_selfTwins (hsound : w.store.Sound) (hrooted : w.store.Rooted) {v : Value}
    (hknown : σ.values = some (v, v)) (hv : w.store.HasValue v) (hdatum : w.Plays .datum v) :
    (selfTwins σ w).Lawful where
  cell := by
    rintro r _ ⟨rfl, hr⟩
    have hcell : w.store.cells[r]? = some w.store.cells[r] := Array.getElem?_eq_getElem hr
    obtain ⟨hcarHas, hcdrHas⟩ := hsound.cell hcell
    obtain ⟨hcar, hcdr⟩ := w.cells r _ hcell
    refine ⟨_, _, hcell, hcell, like_selfTwins hcarHas, like_selfTwins hcdrHas, fun hdata => ?_⟩
    -- A pair that is no code is a datum, and so the fields of it are data.
    have hrole : w.roles r = .datum := by
      by_contra hcode
      exact hdata ⟨hr, hcode⟩
    rw [hrole] at hcar hcdr
    exact ⟨free_selfTwins hcar, free_selfTwins hcdr⟩
  code := by
    rintro r _ ⟨rfl, -⟩
    exact Iff.rfl
  leftCode _ h := h.1
  rightCode _ h := h.1
  vector := by
    rintro r _ ⟨rfl, hr⟩
    have hitems : w.store.vectors[r]? = some w.store.vectors[r] := Array.getElem?_eq_getElem hr
    exact ⟨_, _, hitems, hitems,
      List.forall₂_same.mpr fun v hv => like_selfTwins (hsound.element hitems hv),
      fun hopened => absurd hopened (by simp [hknown])⟩
  closure := by
    rintro r _ ⟨rfl, hr⟩
    have hclosure : w.store.closures[r]? = some w.store.closures[r] :=
      Array.getElem?_eq_getElem hr
    obtain ⟨hformalsHas, hbodyHas, hframe⟩ := hsound.closure hclosure
    obtain ⟨hformals, hbody, -⟩ := w.closures r _ hclosure
    obtain ⟨refs, hchain⟩ := hrooted.frames _ hframe
    obtain ⟨found, hparams⟩ := params_selfTwins hsound hformalsHas hformals
    exact ⟨_, _, hclosure, hclosure, .intro (scope_selfTwins hchain) (like_selfTwins hformalsHas)
      hparams (matches_selfTwins hsound hbodyHas .operands hbody)⟩
  frame := by
    rintro _ r _ ⟨rfl, rfl, hr⟩
    have hframe : w.store.frames[r]? = some w.store.frames[r] := Array.getElem?_eq_getElem hr
    refine ⟨_, _, hframe, hframe, fun name _ => ?_⟩
    cases hvalue : w.store.frames[r].value? name with
    | none => exact .none
    | some v =>
        have hmem : (name, v) ∈ w.store.frames[r].bindings := Frame.mem_of_value? hvalue
        exact .some (likeData_selfTwins (hsound.binding hframe hmem) (w.frames r _ hframe _ hmem))
  blurred := by
    rintro _ _ ⟨h, -⟩
    cases h
  hidden _ := False.elim
  secret _ _ hvalues := by
    cases hknown.symm.trans hvalues
    exact likeData_selfTwins hv hdatum
  formals := by
    rintro r _ ⟨rfl, hr⟩
    have hclosure : w.store.closures[r]? = some w.store.closures[r] :=
      Array.getElem?_eq_getElem hr
    exact ⟨_, _, hclosure, hclosure, like_selfTwins (hsound.closure hclosure).1⟩
  cells_unique := biUnique_self
  vectors_unique := biUnique_self
  closures_unique := biUnique_self
  frames_unique :=
    ⟨fun _ _ _ ⟨_, _, h, _⟩ ⟨_, _, h', _⟩ => h.trans h'.symm,
      fun _ _ _ ⟨_, _, h, _⟩ ⟨_, _, h', _⟩ => h.symm.trans h'⟩
  primitives := rfl
  strings := rfl
  hosts _ _ := Operation.uniform _ _

end CodeWorld

end MiniScheme
