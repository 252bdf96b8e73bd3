import MiniScheme.Proofs.TwinUpdates

/-!
# `MiniScheme.Proofs.TwinScopes`: variables and lists on both sides

What two environments that correspond say about a name, and what two chains
of code that correspond consist of.

A name other than the secret one is found in frames that correspond, or on
neither side (`Twins.Lawful.locate?_cases`). The secret name, in hidden mode
and where it has a value, has that value on the left
(`Twins.Lawful.lookup?_secret`).

Chains of code are finite and end alike. `Twins.Chains` is what the places of
an expression have in common that are lists.
-/

set_option autoImplicit false

namespace MiniScheme

/-! ### Where names are found -/

namespace Twins

variable {σ : Secret} {F : Type} {p p' : Twins σ F} {hidden : Bool} {e e' : Ref}

/-- Environments that correspond end on both sides. -/
theorem Scope.exists_chain (h : p.Scope hidden e e') :
    (∃ refs, p.left.Chain e refs) ∧ ∃ refs', p.right.Chain e' refs' := by
  induction h with
  | outermost _ frame frame' outer outer' =>
      exact ⟨⟨_, .outermost frame outer⟩, ⟨_, .outermost frame' outer'⟩⟩
  | inner _ frame frame' outer outer' _ ih =>
      obtain ⟨⟨refs, hchain⟩, ⟨refs', hchain'⟩⟩ := ih
      exact ⟨⟨_, .inner frame outer hchain⟩, ⟨_, .inner frame' outer' hchain'⟩⟩
  | hidden _ frame outer _ ih =>
      obtain ⟨⟨refs, hchain⟩, hright⟩ := ih
      exact ⟨⟨_, .inner frame outer hchain⟩, hright⟩

/-- Frames that correspond bind the same names. -/
theorem LikeFrame.binds_eq {b : Bool} {f f' : Frame} (h : p.LikeFrame b f f') {name : String}
    (hname : b = true → name ≠ σ.name) : f.binds name = f'.binds name := by
  have hvalues := h name hname
  unfold Frame.binds
  generalize f.value? name = found, f'.value? name = found' at hvalues ⊢
  cases hvalues <;> rfl

/-- A name is found in frames that correspond, or on neither side. -/
theorem Lawful.locate?_cases [HostFunctions F] (hp : p.Lawful) (h : p.Scope hidden e e')
    {name : String} (hname : hidden = true → name ≠ σ.name) :
    (p.left.locate? e name = none ∧ p.right.locate? e' name = none) ∨
    ∃ b r q, p.frames b r q ∧ (b = true → name ≠ σ.name) ∧
      p.left.locate? e name = some r ∧ p.right.locate? e' name = some q := by
  induction h with
  | @outermost blurred r q f f' twin frame frame' outer outer' =>
      rw [Store.locate?_outermost frame outer, Store.locate?_outermost frame' outer']
      obtain ⟨g, g', hg, hg', hlike⟩ := hp.frame _ _ _ twin
      obtain rfl := Option.some.inj (frame.symm.trans hg)
      obtain rfl := Option.some.inj (frame'.symm.trans hg')
      rw [← hlike.binds_eq hname]
      cases f.binds name with
      | false => exact .inl ⟨rfl, rfl⟩
      | true => exact .inr ⟨blurred, r, q, twin, hname, rfl, rfl⟩
  | @inner hidden r q o o' f f' twin frame frame' outer outer' around ih =>
      obtain ⟨⟨refs, hchain⟩, ⟨refs', hchain'⟩⟩ := around.exists_chain
      rw [Store.locate?_inner frame outer hchain, Store.locate?_inner frame' outer' hchain']
      obtain ⟨g, g', hg, hg', hlike⟩ := hp.frame _ _ _ twin
      obtain rfl := Option.some.inj (frame.symm.trans hg)
      obtain rfl := Option.some.inj (frame'.symm.trans hg')
      rw [← hlike.binds_eq fun hb => absurd hb Bool.false_ne_true]
      cases hbinds : f.binds name with
      | true => exact .inr ⟨false, r, q, twin, fun hb => absurd hb Bool.false_ne_true, rfl, rfl⟩
      | false =>
          -- Hidden mode has not ended at this frame for a name that it does not bind.
          refine ih fun hhidden heq => hname ?_ heq
          rw [hhidden, ← heq, hbinds]
          rfl
  | @hidden hidden r q o f alone frame outer around ih =>
      obtain ⟨⟨refs, hchain⟩, -⟩ := around.exists_chain
      obtain ⟨⟨o', v, v', -, hframe⟩, -⟩ := hp.hidden r alone
      obtain rfl := Option.some.inj (frame.symm.trans hframe)
      have hother : (name == σ.name) = false := by simpa using hname rfl
      rw [Store.locate?_inner frame outer hchain]
      simp only [Frame.binds, Frame.value?, List.lookup_cons, hother, List.lookup_nil]
      exact ih fun _ => hname rfl

/-- A name has values that correspond, or none on either side. -/
theorem Lawful.lookup?_rel [HostFunctions F] (hp : p.Lawful) (h : p.Scope hidden e e')
    {name : String} (hname : hidden = true → name ≠ σ.name) :
    Option.Rel p.LikeData (p.left.lookup? e name) (p.right.lookup? e' name) := by
  unfold Store.lookup?
  obtain ⟨hleft, hright⟩ | ⟨b, r, q, twin, hother, hleft, hright⟩ := hp.locate?_cases h hname
  · rw [hleft, hright]
    exact .none
  · obtain ⟨f, f', hf, hf', hlike⟩ := hp.frame b r q twin
    rw [hleft, hright]
    show Option.Rel _ (p.left.valueAt? name r) (p.right.valueAt? name q)
    rw [Store.valueAt?, Store.valueAt?, hf, hf']
    exact hlike name hother

/-- A name has the same written value on both sides. -/
theorem Lawful.written_eq [HostFunctions F] (hp : p.Lawful) (h : p.Scope hidden e e')
    {name : String} (hname : hidden = true → name ≠ σ.name) (shown : Nat) :
    (p.left.lookup? e name).map (p.left.write shown)
      = (p.right.lookup? e' name).map (p.right.write shown) := by
  have hvalues := hp.lookup?_rel h hname
  generalize p.left.lookup? e name = found, p.right.lookup? e' name = found' at hvalues ⊢
  cases hvalues with
  | none => rfl
  | some hv => exact congrArg some (hp.write_eq shown hv.like)

/-- In hidden mode the secret name has its value on the left. -/
theorem Lawful.lookup?_secret [HostFunctions F] (hp : p.Lawful) (h : p.Scope hidden e e')
    (hhidden : hidden = true) {v v' : Value} (hknown : σ.values = some (v, v')) : p.left.lookup? e σ.name = some v := by
  induction h with
  | outermost twin =>
      -- Blurred frames are there only where the name has no value.
      subst hhidden
      cases (hp.blurred _ _ twin).symm.trans hknown
  | @inner hidden r q o o' f f' twin frame frame' outer outer' around ih =>
      obtain ⟨⟨refs, hchain⟩, -⟩ := around.exists_chain
      obtain ⟨hhidden, hbinds⟩ := (Bool.and_eq_true _ _).mp hhidden
      rw [Bool.not_eq_true'] at hbinds
      rw [Store.lookup?, Store.locate?_inner frame outer hchain, hbinds]
      exact ih hhidden
  | @hidden hidden r q o f alone frame outer around =>
      obtain ⟨⟨refs, hchain⟩, -⟩ := around.exists_chain
      obtain ⟨⟨o', w, w', hknown', hframe⟩, -⟩ := hp.hidden r alone
      cases hknown.symm.trans hknown'
      obtain rfl := Option.some.inj (frame.symm.trans hframe)
      have hvalue : Frame.value? ⟨[(σ.name, v)], some o'⟩ σ.name = some v := by
        simp [Frame.value?]
      rw [Store.lookup?, Store.locate?_inner frame outer hchain, Frame.binds, hvalue]
      show p.left.valueAt? σ.name r = some v
      rw [Store.valueAt?, frame]
      exact hvalue

/-! ### Chains of code -/

/-- Two chains of code whose elements are related and whose ends
correspond. -/
inductive Chains (p : Twins σ F) (R : Value → Value → Prop) (last last' : Value) :
    List Value → List Value → Value → Value → Prop
  | last (single : ∀ r, last ≠ .pair r) (like : p.Like last last') :
      Chains p R last last' [] [] last last'
  | link {r q : Ref} {c d : Cell} {items items' : List Value} (code : p.Code r q c d)
      (first : R c.car d.car) (rest : Chains p R last last' items items' c.cdr d.cdr) :
      Chains p R last last' (c.car :: items) (d.car :: items') (.pair r) (.pair q)

namespace Chains

variable {R R' : Value → Value → Prop} {last last' v v' : Value} {items items' : List Value}

theorem mono (hle : p ≤ p') (hR : ∀ a b, R a b → R' a b)
    (h : p.Chains R last last' items items' v v') :
    p'.Chains R' last last' items items' v v' := by
  induction h with
  | last single like => exact .last single (like.mono hle.toGrows)
  | link code first _ ih => exact .link (code.mono hle) (hR _ _ first) ih

/-- A chain of code with one more pair in front, whatever that pair holds. -/
theorem behind {r q : Ref} {c d : Cell} (code : p.Code r q c d)
    (h : p.Chains R last last' items items' c.cdr d.cdr) :
    p.Chains (fun _ _ => True) last last' (c.car :: items) (d.car :: items') (.pair r) (.pair q) :=
  .link code trivial (h.mono (le_refl p) fun _ _ _ => trivial)

theorem forall₂ (h : p.Chains R last last' items items' v v') : List.Forall₂ R items items' := by
  induction h with
  | last => exact .nil
  | link _ first _ ih => exact .cons first ih

theorem ends (h : p.Chains R last last' items items' v v') : p.Like last last' := by
  induction h with
  | last _ like => exact like
  | link _ _ _ ih => exact ih

theorem cell?_of_single {s : Store F} (h : ∀ r, v ≠ .pair r) : s.cell? v = none := by
  cases v with
  | pair r => exact absurd rfl (h r)
  | _ => rfl

theorem spine (h : p.Chains R last last' items items' v v') : p.left.Spine v items last := by
  induction h with
  | last single => exact .last (cell?_of_single single)
  | link code _ _ ih => exact .link code.fields ih

theorem spine' (h : p.Chains R last last' items items' v v') : p.right.Spine v' items' last' := by
  induction h with
  | last single like => exact .last (cell?_of_single (like.single single))
  | link code _ _ ih => exact .link code.fields' ih

end Chains

variable {v v' : Value}

/-- A list of expressions is a chain of them. -/
theorem Matches.chains (h : p.Matches hidden .operands v v') :
    ∃ last last' items items',
      p.Chains (p.Matches hidden .expression) last last' items items' v v' := by
  generalize hplace : CodePlace.operands = place at h
  induction h with
  | leaf single like => exact ⟨_, _, [], [], .last single like⟩
  | operands code first _ _ ih =>
      obtain ⟨last, last', items, items', hchains⟩ := ih rfl
      exact ⟨last, last', _, _, .link code first hchains⟩
  | secret | form | call | assignment | abstraction | quotation | misquotation => cases hplace

/-- Parameters are a chain of values that correspond. -/
theorem Params.chains {found : Bool} (h : p.Params found v v') :
    ∃ last last' items items', p.Chains p.Like last last' items items' v v' := by
  induction h with
  | last single like => exact ⟨_, _, [], [], .last single like⟩
  | link code like _ ih =>
      obtain ⟨last, last', items, items', hchains⟩ := ih
      exact ⟨last, last', _, _, .link code like hchains⟩

/-- A proper list of code ends in the empty list. -/
theorem Proper.spine (h : p.Proper v) : ∃ items, p.left.Spine v items .nil := by
  induction h with
  | nil => exact ⟨[], .last rfl⟩
  | link _ fields _ ih =>
      obtain ⟨items, hspine⟩ := ih
      exact ⟨_, .link fields hspine⟩

/-! ### Bindings -/

/-- The same name, with data that correspond. -/
def LikeBinding (p : Twins σ F) (b b' : String × Value) : Prop := b.1 = b'.1 ∧ p.LikeData b.2 b'.2

theorem LikeBinding.mono (hle : p ≤ p') {b b' : String × Value} (h : p.LikeBinding b b') :
    p'.LikeBinding b b' :=
  ⟨h.1, h.2.mono hle.toGrows⟩

variable {bindings bindings' : List (String × Value)}

theorem forall₂_insert (h : List.Forall₂ p.LikeBinding bindings bindings')
    (hv : p.LikeData v v') (name : String) :
    List.Forall₂ p.LikeBinding (Frame.insert name v bindings)
      (Frame.insert name v' bindings') := by
  induction h with
  | nil => exact .cons ⟨rfl, hv⟩ .nil
  | @cons b b' rest rest' hb hrest ih =>
      obtain ⟨other, w⟩ := b
      obtain ⟨other', w'⟩ := b'
      obtain ⟨rfl, hw⟩ := hb
      by_cases hname : other = name
      · simp only [Frame.insert, hname, if_true]
        exact .cons ⟨rfl, hv⟩ hrest
      · simp only [Frame.insert, hname, if_false]
        exact .cons ⟨rfl, hw⟩ ih

theorem likeFrame_of_bindings (h : List.Forall₂ p.LikeBinding bindings bindings')
    (o o' : Option Ref) : p.LikeFrame false ⟨bindings, o⟩ ⟨bindings', o'⟩ := by
  intro name _
  show Option.Rel _ (bindings.lookup name) (bindings'.lookup name)
  induction h with
  | nil => exact .none
  | @cons b b' rest rest' hb hrest ih =>
      obtain ⟨other, w⟩ := b
      obtain ⟨other', w'⟩ := b'
      obtain ⟨rfl, hw⟩ := hb
      rw [List.lookup_cons, List.lookup_cons]
      cases name == other with
      | true => exact .some hw
      | false => exact ih

end Twins

end MiniScheme
