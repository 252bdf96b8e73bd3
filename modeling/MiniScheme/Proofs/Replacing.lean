import MiniScheme.Proofs.TwinLoading

/-!
# `MiniScheme.Proofs.Replacing`: values in the place of a variable

`Store.loadReplacing` puts an expression into the store and a quoted value in
the place of a variable, wherever the variable would be evaluated: not in
quoted data, and not where a parameter of an inner `lambda` has the same name.

Such code does the same as the expression as it was, where the variable has
that value (`Twins.load_replacing`), if it does not assign the
variable. The calls in it have to have proper lists of operands: the message
about any other call shows the call itself, and would show the value.
-/

set_option autoImplicit false

namespace MiniScheme

namespace Datum

/-! ### Places in a datum -/

/-- The datum is a proper list. -/
def isList : Datum → Bool
  | .nil => true
  | .pair _ cdr => isList cdr
  | _ => false

/-- In code at the place, all calls have proper lists of operands. -/
def callsProper : CodePlace → Datum → Bool
  | .expression, .pair car cdr =>
    match car.form? with
    | some form => callsProper form.place cdr
    | none => cdr.isList && callsProper .expression car && callsProper .operands cdr
  | .operands, .pair car cdr => callsProper .expression car && callsProper .operands cdr
  | .assignment, .pair _ cdr | .abstraction, .pair _ cdr => callsProper .operands cdr
  | _, _ => true

/-- Code at the place assigns the variable. -/
def assigns (name : String) : CodePlace → Datum → Bool
  | .expression, .pair car cdr =>
    match car.form? with
    | some form => assigns name form.place cdr
    | none => assigns name .expression car || assigns name .operands cdr
  | .operands, .pair car cdr => assigns name .expression car || assigns name .operands cdr
  | .assignment, .pair car cdr => isSymbol name car || assigns name .operands cdr
  | .abstraction, .pair car cdr => !hasParameter name car && assigns name .operands cdr
  | _, _ => false

end Datum

namespace Store

/-- A quoted value. -/
def quoting (v : Value) (s : Store) : Value × Store :=
  let (tail, s) := s.cons v .nil
  s.cons (.symbol "quote") tail

/-- Puts code at the place into the store, with the quoted value for the
variable wherever it would be evaluated. -/
def loadReplacing (name : String) (v : Value) : CodePlace → Datum → Store → Value × Store
  | .expression, .symbol other =>
    if other = name then quoting v else fun s => s.load (.symbol other)
  | .expression, .pair car cdr =>
    match car.form? with
    | some form => joining (fun s => s.load car) (loadReplacing name v form.place cdr)
    | none => joining (loadReplacing name v .expression car) (loadReplacing name v .operands cdr)
  | .operands, .pair car cdr =>
    joining (loadReplacing name v .expression car) (loadReplacing name v .operands cdr)
  | .assignment, .pair car cdr => joining (fun s => s.load car) (loadReplacing name v .operands cdr)
  | .abstraction, .pair car cdr =>
    if car.hasParameter name then fun s => s.load (.pair car cdr)
    else joining (fun s => s.load car) (loadReplacing name v .operands cdr)
  | _, d => fun s => s.load d

theorem loadReplacing_leaf {name : String} {d : Datum} (hd : ∀ car cdr, d ≠ .pair car cdr)
    {place : CodePlace} (hname : place = .expression → d.isSymbol name = false) (v : Value) :
    loadReplacing name v place d = fun s => s.load d := by
  cases d with
  | pair car cdr => exact absurd rfl (hd car cdr)
  | symbol other =>
      cases place with
      | expression => exact if_neg (of_decide_eq_false (hname rfl))
      | _ => rfl
  | _ => cases place <;> rfl

end Store

namespace Twins

variable {σ : Secret} {p p' : Twins σ} {w w' v v' : Value}

/-! ### Code with the value in it -/

/-- Pairs of code that are made on both sides need not correspond. -/
theorem Lawful.makes_apart (hp : p.Lawful) {a a' d d' : Value} {Q : Twins σ → Value → Value → Prop}
    (h : ∀ p₁ r q, p ≤ p₁ → p₁.Code r q ⟨a, d⟩ ⟨a', d'⟩ → Q p₁ (.pair r) (.pair q)) :
    p.Makes (fun s => s.cons a d) (fun s => s.cons a' d') Q := by
  have hp₁ := hp.consLeft ⟨a, d⟩
  have hle := (hp.grows_consLeft ⟨a, d⟩).trans (hp₁.grows_consRight ⟨a', d'⟩)
  exact ⟨_, hle, hp₁.consRight ⟨a', d'⟩, rfl, rfl, h _ _ _ hle ⟨.inr rfl, .inr rfl,
    Array.getElem?_push_size, Array.getElem?_push_size⟩⟩

/-- The quoted value stands for the name. -/
theorem Lawful.makes_quoting (hp : p.Lawful) (hknown : σ.values = some (w, w')) :
    p.Makes (fun s => s.load (.symbol σ.name)) (Store.quoting w')
      fun p' v v' => p'.Matches true .expression v v' := by
  have hp₁ := hp.consRight ⟨w', .nil⟩
  have hle := hp₁.grows_consRight ⟨.symbol "quote", .pair p.right.cells.size⟩
  obtain ⟨hcode, hfields⟩ := hle.rightCode p.right.cells.size (.inr rfl)
  refine ⟨_, (hp.grows_consRight _).trans hle, hp₁.consRight _, rfl, rfl, ?_⟩
  exact .secret hknown (.inr rfl) Array.getElem?_push_size hcode
    (hfields.trans Array.getElem?_push_size)

/-- Heads of calls stay heads of calls: a quoted value names no special
form. -/
theorem Matches.ofHead?_eq_none (h : p.Matches true .expression v v')
    (hv : Form.ofHead? v = none) : Form.ofHead? v' = none := by
  generalize hplace : CodePlace.expression = place at h
  cases h with
  | leaf _ like => exact like.ofHead?_eq.symm.trans hv
  | secret | form | call => rfl
  | operands | assignment | abstraction | quotation | misquotation => rfl

/-- Code that corresponds, and a proper list if the datum is a list of
operands that is one. -/
def Replaced (place : CodePlace) (d : Datum) (p : Twins σ) (v v' : Value) : Prop :=
  p.Matches true place v v' ∧ (place = .operands → d.isList = true → p.Proper v)

theorem kept_replaced (place : CodePlace) (d : Datum) : Kept (σ := σ) (Replaced place d) :=
  fun _ _ _ _ hle h => ⟨h.1.mono hle, fun hplace hd => (h.2 hplace hd).mono hle⟩

theorem Matches.replaced {place : CodePlace} {d : Datum} (h : p.Matches true place v v')
    (hplace : place ≠ .operands) : Replaced place d p v v' :=
  ⟨h, fun heq => absurd heq hplace⟩

/-- A datum that is no pair stays, unless it is the variable. -/
theorem Lawful.load_leaf_replaced (hp : p.Lawful) {d : Datum} (hd : ∀ car cdr, d ≠ .pair car cdr)
    {place : CodePlace} (hname : place = .expression → d.isSymbol σ.name = false) :
    p.Makes (fun s => s.load d) (Store.loadReplacing σ.name w' place d) (Replaced place d) := by
  rw [Store.loadReplacing_leaf hd hname]
  refine ((hp.load_leaf_code hd fun hplace _ => hname hplace).with
    (R := fun v => d.isList = true → v = .nil) fun hlist => ?_).weaken fun p' v v' ⟨h, hv⟩ =>
      ⟨h.2, fun _ hlist => hv hlist ▸ .nil⟩
  cases d with
  | nil => rfl
  | pair car cdr => exact absurd rfl (hd car cdr)
  | _ => cases hlist

/-- A `lambda` with a parameter of that name stays as it is. -/
theorem Lawful.load_rebinding (hp : p.Lawful) {car cdr : Datum}
    (hcar : car.hasParameter σ.name = true) :
    p.Makes (fun s => s.load (.pair car cdr)) (fun s => s.load (.pair car cdr))
      (Replaced .abstraction (.pair car cdr)) := by
  rw [Store.load_pair_eq]
  refine .joining (fun _ _ _ _ hle h => ⟨h.1.mono hle.toGrows, h.2.mono hle⟩) (hp.load_params car)
    (fun p₁ _ hp₁ => load_code cdr (fun h => absurd h Bool.false_ne_true) .operands p₁ hp₁)
    ?_
  rintro p₂ - hp₂ a a' d d' ⟨ha, hparams⟩ ⟨hlike, hbody⟩
  rw [hcar] at hparams
  refine hp₂.makes_apart fun p₃ r q hle₃ hcode => Matches.replaced ?_ (by decide)
  exact .abstraction hcode (ha.mono hle₃.toGrows) (hparams.mono hle₃) (hbody.mono hle₃)

/-- Whatever the stores are, the datum with the value in it does the same at
this place as the datum, if it does not assign the name. -/
def Replaces (σ : Secret) (w' : Value) (place : CodePlace) (d : Datum) : Prop :=
  ∀ p : Twins σ, p.Lawful → d.callsProper place = true → d.assigns σ.name place = false →
    p.Makes (fun s => s.load d) (Store.loadReplacing σ.name w' place d) (Replaced place d)

namespace Replaces

variable {name : String} {car cdr : Datum}

theorem symbol (hknown : σ.values = some (w, w')) (place : CodePlace) :
    Replaces σ w' place (.symbol name) := by
  intro p hp _ _
  by_cases hsecret : place = .expression ∧ name = σ.name
  · obtain ⟨rfl, rfl⟩ := hsecret
    have hload : Store.loadReplacing σ.name w' .expression (.symbol σ.name) = Store.quoting w' :=
      if_pos rfl
    rw [hload]
    exact (hp.makes_quoting hknown).weaken fun p' v v' h => h.replaced (by decide)
  · refine hp.load_leaf_replaced (by simp) fun hplace => ?_
    exact decide_eq_false fun hname => hsecret ⟨hplace, hname⟩

/-- A special form is no expression that is evaluated: its name stays, and its
operands are code at the place it gives them. -/
theorem form {form : Form} (hform : car.form? = some form)
    (hcdr : Replaces σ w' form.place cdr) : Replaces σ w' .expression (.pair car cdr) := by
  intro p hp hproper hassigns
  simp only [Datum.callsProper, Datum.assigns, hform] at hproper hassigns
  rw [Store.load_pair_eq]
  simp only [Store.loadReplacing, hform]
  refine .joining (kept_likeData_with fun v => Form.ofHead? v = some form)
    ((hp.load_datum car).with ((Store.ofHead?_load _ _).trans hform))
    (fun p₁ _ hp₁ => hcdr p₁ hp₁ hproper hassigns) ?_
  rintro p₂ - hp₂ a a' d d' ⟨ha, hhead⟩ ⟨htail, -⟩
  refine hp₂.makes_apart fun p₃ r q hle₃ hcode => Matches.replaced ?_ (by decide)
  exact .form hcode hhead (ha.like.ofHead?_eq.symm.trans hhead) (htail.mono hle₃)

/-- The two pairs of a call do not correspond, so the call must not be shown:
its operands are a proper list. -/
theorem call (hform : car.form? = none) (hcar : Replaces σ w' .expression car)
    (hcdr : Replaces σ w' .operands cdr) : Replaces σ w' .expression (.pair car cdr) := by
  intro p hp hproper hassigns
  simp only [Datum.callsProper, Datum.assigns, hform, Bool.and_eq_true,
    Bool.or_eq_false_iff] at hproper hassigns
  obtain ⟨⟨hlist, hpropercar⟩, hpropercdr⟩ := hproper
  rw [Store.load_pair_eq]
  simp only [Store.loadReplacing, hform]
  refine .joining (Q := fun p' v v' => Replaced .expression car p' v v' ∧ Form.ofHead? v = none)
    (fun _ _ _ _ hle h => ⟨kept_replaced _ _ _ _ _ _ hle h.1, h.2⟩)
    ((hcar p hp hpropercar hassigns.1).with ((Store.ofHead?_load _ _).trans hform))
    (fun p₁ _ hp₁ => hcdr p₁ hp₁ hpropercdr hassigns.2) ?_
  rintro p₂ - hp₂ a a' d d' ⟨⟨hfn, -⟩, hhead⟩ ⟨htail, hlisted⟩
  refine hp₂.makes_apart fun p₃ r q hle₃ hcode => Matches.replaced ?_ (by decide)
  exact .call hcode hhead (hfn.ofHead?_eq_none hhead) (hfn.mono hle₃) (htail.mono hle₃)
    (.inr ((hlisted rfl hlist).mono hle₃))

theorem operands (hcar : Replaces σ w' .expression car) (hcdr : Replaces σ w' .operands cdr) :
    Replaces σ w' .operands (.pair car cdr) := by
  intro p hp hproper hassigns
  obtain ⟨hpropercar, hpropercdr⟩ := Bool.and_eq_true_iff.mp hproper
  obtain ⟨hassignscar, hassignscdr⟩ := Bool.or_eq_false_iff.mp hassigns
  rw [Store.load_pair_eq]
  refine .joining (kept_replaced _ _) (hcar p hp hpropercar hassignscar)
    (fun p₁ _ hp₁ => hcdr p₁ hp₁ hpropercdr hassignscdr) ?_
  rintro p₂ - hp₂ a a' d d' ⟨hfirst, -⟩ ⟨hrest, hlisted⟩
  refine hp₂.makes_apart fun p₃ r q hle₃ hcode =>
    ⟨.operands hcode (hfirst.mono hle₃) (hrest.mono hle₃), fun _ hlist => ?_⟩
  exact .link hcode.left hcode.fields ((hlisted rfl hlist).mono hle₃)

theorem assignment (hcdr : Replaces σ w' .operands cdr) :
    Replaces σ w' .assignment (.pair car cdr) := by
  intro p hp hproper hassigns
  obtain ⟨hassignscar, hassignscdr⟩ := Bool.or_eq_false_iff.mp hassigns
  rw [Store.load_pair_eq]
  refine .joining (kept_likeData_with fun v => v = .symbol σ.name ↔ car.isSymbol σ.name = true)
    ((hp.load_datum car).with (Store.load_eq_symbol_iff p.left car σ.name))
    (fun p₁ _ hp₁ => hcdr p₁ hp₁ hproper hassignscdr) ?_
  rintro p₂ - hp₂ a a' d d' ⟨ha, hname⟩ ⟨hrest, -⟩
  refine hp₂.makes_apart fun p₃ r q hle₃ hcode => Matches.replaced ?_ (by decide)
  refine .assignment hcode (ha.like.mono hle₃.toGrows) (fun _ heq => ?_) (hrest.mono hle₃)
  exact absurd (hname.mp heq) (by simp [hassignscar])

/-- An inner `lambda` whose parameters leave the name alone has the value in
its body. -/
theorem abstraction (hcdr : Replaces σ w' .operands cdr) :
    Replaces σ w' .abstraction (.pair car cdr) := by
  intro p hp hproper hassigns
  by_cases hrebound : car.hasParameter σ.name = true
  · rw [Store.loadReplacing, if_pos hrebound]
    exact hp.load_rebinding hrebound
  · rw [Store.loadReplacing, if_neg hrebound, Store.load_pair_eq]
    rw [Bool.not_eq_true] at hrebound
    simp only [Datum.callsProper, Datum.assigns, hrebound, Bool.not_false,
      Bool.true_and] at hproper hassigns
    refine .joining (fun _ _ _ _ hle h => ⟨h.1.mono hle.toGrows, h.2.mono hle⟩) (hp.load_params car)
      (fun p₁ _ hp₁ => hcdr p₁ hp₁ hproper hassigns) ?_
    rintro p₂ - hp₂ a a' d d' ⟨ha, hparams⟩ ⟨hbody, -⟩
    rw [hrebound] at hparams
    refine hp₂.makes_apart fun p₃ r q hle₃ hcode => Matches.replaced ?_ (by decide)
    exact .abstraction hcode (ha.mono hle₃.toGrows) (hparams.mono hle₃) (hbody.mono hle₃)

end Replaces

/-- Code with the value in it does the same as code with the name, if it does
not assign that name. -/
theorem load_replacing (hknown : σ.values = some (w, w')) (d : Datum) :
    ∀ place, Replaces σ w' place d := by
  -- By induction on the datum: its place tells how its parts are code.
  induction d using Datum.treeInduction with
  | number | text | boolean | nil | vector =>
      exact fun place p hp _ _ => hp.load_leaf_replaced (by simp) fun _ => rfl
  | symbol name => exact .symbol hknown
  | pair car cdr ihcar ihcdr =>
      intro place
      cases place with
      | expression =>
          cases hform : car.form? with
          | some form => exact .form hform (ihcdr form.place)
          | none => exact .call hform (ihcar .expression) (ihcdr .operands)
      | operands => exact .operands (ihcar .expression) (ihcdr .operands)
      | assignment => exact .assignment (ihcdr .operands)
      | abstraction => exact .abstraction (ihcdr .operands)
      | quotation =>
          intro p hp _ _
          exact (hp.load_quotation (.pair car cdr)).weaken fun p' v v' h =>
            h.2.replaced (by decide)

end Twins

end MiniScheme
