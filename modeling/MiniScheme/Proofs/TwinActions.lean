import MiniScheme.Proofs.TwinScopes

/-!
# `MiniScheme.Proofs.TwinActions`: the actions of the evaluator side by side

This file goes through the actions of the evaluator that evaluate no part, from
stores that correspond. What a step on data needs of two stores is a
correspondence of data, and frames and closures stay as they were
(`Twins.tallies_of_data`); this is how the functions of the host come in.
-/

set_option autoImplicit false

namespace MiniScheme.Twins

variable {σ : Secret} {F : Type} [HostFunctions F] {p p' : Twins σ F} {α β γ δ : Type}
  {hidden : Bool} {e e' : Ref} {v v' : Value} {Q : Twins σ F → α → β → Prop}
  {Q' : Twins σ F → γ → δ → Prop}

theorem tallies_inquire_bind {f : Store F → α} {g : Store F → β} {k : α → EvalOn F γ}
    {k' : β → EvalOn F δ} (h : Tallies p (k (f p.left)) (k' (g p.right)) Q') :
    Tallies p (inquire f >>= k) (inquire g >>= k') Q' :=
  .inquire_bind h

/-- The results are data that correspond. -/
abbrev LikeResults (p : Twins σ F) (v v' : Value) : Prop := p.LikeData v v'

/-! ### Steps on data -/

/-- Steps on data that tally leave environments and code as they correspond. -/
theorem tallies_of_data {x : EvalOn F α} {y : EvalOn F β}
    {R : Correspondence σ.values.isNone F → α → β → Prop} (h : Tallies p.toCorrespondence x y R) :
    Tallies p x y fun p' a b => R p'.toCorrespondence a b := by
  intro m m' hat
  have hends := h m m' ⟨hat.left, hat.right, hat.lawful.toLawful, hat.journals⟩
  generalize x m = result, y m' = result' at hends ⊢
  cases hends with
  | ok later here holds =>
      exact .ok (grows_widen later)
        ⟨here.left, here.right, hat.lawful.widen later here.lawful, here.journals⟩ holds
  | error later here =>
      exact .error (grows_widen later)
        ⟨here.left, here.right, hat.lawful.widen later here.lawful, here.journals⟩

theorem tallies_list {items items' : List Value} (h : List.Forall₂ p.LikeData items items') :
    Tallies p (change fun s => s.list items .nil) (change fun s => s.list items' .nil)
      LikeResults := by
  refine tallies_of_data (R := Correspondence.LikeData) (.of_lawful fun hp => ?_)
  obtain ⟨c, hle, hlawful, hleft, hright, hdata⟩ :=
    Correspondence.Lawful.consAll hp (List.rel_reverse h) (.atom (v := .nil) trivial)
  exact .change hle hlawful hleft hright hdata

/-- Functions of the host that are there do the same on both sides. -/
theorem tallies_applyPrimitive (depth : Nat) {primitive : Primitive F}
    (hprimitive : Uniform σ.values.isNone primitive.operation) {args args' : List Value}
    (h : List.Forall₂ p.LikeData args args') :
    Tallies p (applyPrimitive depth primitive args) (applyPrimitive depth primitive args')
      LikeResults := by
  unfold applyPrimitive
  rw [h.length_eq]
  have hrun : Tallies p
      (note (fun _ => .ok (.primitiveCalled primitive.name args'.length)) >>= fun _ =>
        HostFunctions.run depth primitive.operation args)
      (note (fun _ => .ok (.primitiveCalled primitive.name args'.length)) >>= fun _ =>
        HostFunctions.run depth primitive.operation args') LikeResults :=
    (Tallies.note ⟨by rintro ⟨⟩, by rintro ⟨⟩⟩).bind fun p' hle _ _ _ =>
      tallies_of_data (hprimitive depth p'.toCorrespondence args args'
        (h.imp fun _ _ hv => hv.mono hle.toGrows))
  split
  · exact .throw _
  · exact hrun

/-! ### Chains of code -/

/-- Chains of code that correspond have been followed to their ends. -/
theorem tallies_spine_bind {R : Value → Value → Prop} {last last' : Value}
    {items items' : List Value} (h : p.Chains R last last' items items' v v')
    {k : List Value × Value → EvalOn F γ} {k' : List Value × Value → EvalOn F δ}
    (hk : Tallies p (k (items, last)) (k' (items', last')) Q') :
    Tallies p (spine v >>= k) (spine v' >>= k') Q' := by
  intro m m' hat
  rw [bind_run_ok (spine_run (hat.left ▸ Store.spine?_eq_some_iff.mpr h.spine)),
    bind_run_ok (spine_run (hat.right ▸ Store.spine?_eq_some_iff.mpr h.spine'))]
  exact hk m m' hat

/-- The operands of a form are a proper list on both sides, or on neither. -/
theorem tallies_formOperands_bind {R : Value → Value → Prop} {last last' : Value}
    {items items' : List Value} (h : p.Chains R last last' items items' v v') (form : Form)
    {k : List Value → EvalOn F γ} {k' : List Value → EvalOn F δ}
    (hk : last = .nil → Tallies p (k items) (k' items') Q') :
    Tallies p (formOperands form v >>= k) (formOperands form v' >>= k') Q' := by
  refine .of_lawful fun hp => ?_
  have hlast := hp.eq_atom_iff h.ends (a := .nil) trivial
  unfold formOperands
  rw [bind_assoc, bind_assoc]
  refine tallies_spine_bind h ?_
  by_cases hnil : last = .nil
  · simp only [hnil, hlast.mp hnil, if_true, pure_bind]
    exact hk hnil
  · have hnil' : last' ≠ .nil := fun h' => hnil (hlast.mpr h')
    simp only [hnil, hnil', if_false]
    exact .throw _

/-! ### Variables -/

theorem tallies_lookup (h : p.Scope hidden e e') {name : String}
    (hname : hidden = true → name ≠ σ.name) :
    Tallies p (lookup e name) (lookup e' name) LikeResults := by
  intro m m' hat
  have hrel := hat.lawful.lookup?_rel h hname
  unfold lookup examine
  rw [hat.left, hat.right]
  dsimp only
  generalize p.left.lookup? e name = found, p.right.lookup? e' name = found' at hrel
  cases hrel with
  | none => exact .error (le_refl p) hat
  | some hdata => exact .ok (le_refl p) hat hdata

/-- A variable is assigned in frames that correspond, or on neither side. -/
theorem tallies_assign (h : p.Scope hidden e e') {name : String}
    (hname : hidden = true → name ≠ σ.name) (hv : p.LikeData v v') :
    Tallies p (assign e name v) (assign e' name v') LikeResults := by
  refine .of_lawful fun hp => tallies_inquire_bind ?_
  obtain ⟨hleft, hright⟩ | ⟨b, r, q, twin, -, hleft, hright⟩ := hp.locate?_cases h hname
  · rw [hleft, hright]
    exact .throw _
  · rw [hleft, hright]
    obtain ⟨hle, hlawful⟩ := hp.bind twin hv (Store.framesKept_bind v hleft)
      (Store.framesKept_bind v' hright)
    refine Tallies.bind (Q := fun p' _ _ => p'.LikeData v v')
      (.change hle hlawful rfl rfl (hv.mono hle.toGrows)) fun p₁ hle₁ _ _ hv₁ => ?_
    have hnote : Tallies p₁ (note fun _ => .ok (.assigned name r))
        (note fun _ => .ok (.assigned name q)) fun _ _ _ => True :=
      .note ⟨by rintro ⟨⟩, by rintro ⟨⟩⟩
    exact hnote.bind fun p₂ hle₂ _ _ _ => .pure (hv₁.mono hle₂.toGrows)

/-! ### New frames -/

variable {bindings bindings' : List (String × Value)}

/-- The last parameter takes all values that are left, unless the parameters
are a proper list. -/
theorem tallies_pairFormals_last (depth : Nat) {formals formals' : Value}
    (hformals : p.Like formals formals') (count paired : Nat) (single : ∀ r, v ≠ .pair r)
    (like : p.Like v v') {values values' : List Value}
    (hvalues : List.Forall₂ p.LikeData values values')
    (hbindings : List.Forall₂ p.LikeBinding bindings bindings') :
    Tallies p (pairFormals depth formals count paired bindings v values)
      (pairFormals depth formals' count paired bindings' v' values')
      fun p' result result' => List.Forall₂ p'.LikeBinding result result' ∧
        (σ.name ∈ result.map Prod.fst ↔
          σ.name ∈ bindings.map Prod.fst ∨ decide (v = .symbol σ.name) = true) := by
  have hcell : p.left.cell? v = none := Chains.cell?_of_single single
  have hcell' : p.right.cell? v' = none := Chains.cell?_of_single (like.single single)
  rw [pairFormals.eq_def, pairFormals.eq_def]
  refine tallies_inquire_bind ?_
  rw [hcell, hcell']
  dsimp only
  cases like with
  | @atom v simple =>
      cases v with
      | nil =>
          cases hvalues with
          | nil => exact .pure ⟨hbindings, by simp⟩
          | cons => exact .throw _
      | symbol name =>
          refine (tallies_list hvalues).bind fun p' hle _ _ hrest => .pure ⟨?_, ?_⟩
          · exact forall₂_insert (hbindings.imp fun _ _ => LikeBinding.mono hle) hrest name
          · rw [Frame.mem_names_insert]
            simp [or_comm, eq_comm]
      | pair => exact absurd rfl (single _)
      | _ => exact tallies_failShowing depth _ hformals
  | pair => exact absurd rfl (single _)
  | _ => exact tallies_failShowing depth _ hformals

/-- Parameters are paired with values alike. The secret name gets a value if
it is among them. -/
theorem tallies_pairFormals (depth : Nat) {formals formals' : Value}
    (hformals : p.Like formals formals') (count : Nat) {found : Bool} (h : p.Params found v v') :
    ∀ {values values' : List Value} (paired : Nat) {bindings bindings' : List (String × Value)},
      List.Forall₂ p.LikeData values values' → List.Forall₂ p.LikeBinding bindings bindings' →
      Tallies p (pairFormals depth formals count paired bindings v values)
        (pairFormals depth formals' count paired bindings' v' values')
        fun p' result result' => List.Forall₂ p'.LikeBinding result result' ∧
          (σ.name ∈ result.map Prod.fst ↔ σ.name ∈ bindings.map Prod.fst ∨ found = true) := by
  induction h with
  | last single like =>
      intro values values' paired bindings bindings' hvalues hbindings
      exact tallies_pairFormals_last depth hformals count paired single like hvalues hbindings
  | @link r q c d found code like rest ih =>
      intro values values' paired bindings bindings' hvalues hbindings
      have hcell : p.left.cell? (.pair r) = some c := code.fields
      have hcell' : p.right.cell? (.pair q) = some d := code.fields'
      rw [pairFormals.eq_def, pairFormals.eq_def]
      refine tallies_inquire_bind ?_
      rw [hcell, hcell']
      dsimp only
      obtain ⟨last, last', items, items', hchains⟩ := (Params.link code like rest).chains
      generalize hcar : c.car = a, hcar' : d.car = a' at like ⊢
      cases like with
      | @atom a simple =>
          cases a with
          | symbol name =>
              cases hvalues with
              | nil =>
                  -- A value is missing, and the chains tell how many.
                  refine tallies_spine_bind hchains ?_
                  rw [hchains.forall₂.length_eq]
                  exact .throw _
              | cons hvalue hvalues =>
                  refine (ih (paired + 1) hvalues (forall₂_insert hbindings hvalue name)).weaken ?_
                  rintro p' result result' ⟨hresult, hnames⟩
                  refine ⟨hresult, hnames.trans ?_⟩
                  rw [Frame.mem_names_insert, Bool.or_eq_true, decide_eq_true_eq,
                    Value.symbol.injEq, eq_comm (a := name), or_assoc, or_left_comm]
          | _ => exact tallies_failShowing depth _ (.atom simple)
      | pair twin => exact tallies_failShowing depth _ (.pair twin)
      | vector twin => exact tallies_failShowing depth _ (.vector twin)
      | closure twin => exact tallies_failShowing depth _ (.closure twin)
      | primitive r => exact tallies_failShowing depth _ (.primitive r)

/-- The new frames correspond. Hidden mode ends if the secret name is one of
the parameters. -/
theorem tallies_extend (depth : Nat) (hscope : p.Scope hidden e e') {formals formals' : Value}
    (hformals : p.Like formals formals') {found : Bool} (hparams : p.Params found formals formals')
    {values values' : List Value} (hvalues : List.Forall₂ p.LikeData values values') :
    Tallies p (extend depth e formals values) (extend depth e' formals' values')
      fun p' r q => p'.Scope (hidden && !found) r q := by
  unfold extend
  rw [hvalues.length_eq]
  refine (tallies_pairFormals depth hformals _ hparams 0 hvalues .nil).bind
    fun p₁ hle₁ bindings bindings' ⟨hbindings, hnames⟩ => .of_lawful fun hp₁ => ?_
  have hle := p₁.grows_newFrame ⟨bindings, some e⟩ ⟨bindings', some e'⟩
  have hbinds : (⟨bindings, some e⟩ : Frame).binds σ.name = found := by
    rw [Bool.eq_iff_iff, Store.binds_iff]
    simpa using hnames
  refine Tallies.bind (Q := fun p' r q => p'.Scope (hidden && !found) r q ∧
      p'.left.showFrame depth r = p'.right.showFrame depth q)
    (.change hle (hp₁.newFrame (likeFrame_of_bindings hbindings _ _)) rfl rfl ⟨?_, ?_⟩)
    fun p₂ _ r q ⟨hscope', hshown⟩ =>
      (Tallies.note_text hshown).bind fun p₃ hle₃ _ _ _ => .pure (hscope'.mono hle₃)
  · rw [← hbinds]
    exact .inner (.inr ⟨rfl, rfl, rfl⟩) Array.getElem?_push_size Array.getElem?_push_size rfl rfl
      ((hscope.mono hle₁).mono hle)
  · refine (hp₁.newFrame (likeFrame_of_bindings hbindings _ _)).showFrame_eq depth
      Array.getElem?_push_size Array.getElem?_push_size ?_
    exact hbindings.imp fun _ _ hb => ⟨hb.1, hb.2.like.mono hle.toGrows⟩

theorem tallies_makeClosure (depth : Nat) {k k' : Closure} (h : p.LikeClosure k k') :
    Tallies p (makeClosure depth k.frame k.formals k.body)
      (makeClosure depth k'.frame k'.formals k'.body) LikeResults := by
  refine .of_lawful fun hp => ?_
  have hle := p.grows_newClosure k k'
  refine Tallies.bind (Q := fun p' v v' => p'.LikeData v v' ∧ p'.Like k.formals k'.formals)
    (.change hle (hp.newClosure h) rfl rfl ⟨⟨.closure (.inr ⟨rfl, rfl⟩), by rintro r ⟨⟩⟩, ?_⟩)
    fun p₁ _ v v' ⟨hv, hformals⟩ => .of_lawful fun hp₁ =>
      (Tallies.note_text (hp₁.display_eq depth hformals)).bind fun p₂ hle₂ _ _ _ =>
        .pure (hv.mono hle₂.toGrows)
  obtain ⟨-, hformals, -, -⟩ := h
  exact hformals.mono hle.toGrows

end MiniScheme.Twins
