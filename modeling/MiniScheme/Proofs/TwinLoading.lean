import MiniScheme.Proofs.Loading
import MiniScheme.Proofs.TwinActions

/-!
# `MiniScheme.Proofs.TwinLoading`: one text read on both sides

A datum that is put into both stores becomes objects that correspond. As data
it may be anything (`Twins.Lawful.load_datum`). As code it does the same on
both sides, if it does not mention the secret name or hidden mode is off
(`Twins.load_code`): its pairs are code, but those of quoted data and
of vectors are data.
-/

set_option autoImplicit false

namespace MiniScheme

namespace Datum

mutual

/-- The symbol occurs in the datum. A quote mark stands for the symbol
`quote`. -/
def mentions (name : String) : Datum → Bool
  | .symbol other => other = name
  | .pair car cdr => mentions name car || mentions name cdr
  | .vector items => anyMentions name items
  | .number _ | .text _ | .boolean _ | .nil => false

/-- The symbol occurs in one of the data. -/
def anyMentions (name : String) : List Datum → Bool
  | [] => false
  | d :: ds => mentions name d || anyMentions name ds

end

/-- The special form that the datum names. -/
def form? : Datum → Option Form
  | .symbol name => Form.ofHead? (.symbol name)
  | _ => none

theorem mentions_pair_eq_false {name : String} {car cdr : Datum} :
    (pair car cdr).mentions name = false ↔
      car.mentions name = false ∧ cdr.mentions name = false := by
  simp [mentions]

/-- The datum is this symbol. -/
def isSymbol (name : String) : Datum → Bool
  | .symbol other => other = name
  | _ => false

/-- The symbol is one of these parameters, or the last one, which takes all
values that are left. -/
def hasParameter (name : String) : Datum → Bool
  | .symbol other => other = name
  | .pair car cdr => isSymbol name car || hasParameter name cdr
  | _ => false

theorem isSymbol_of_mentions {name : String} {d : Datum} (h : d.mentions name = false) :
    d.isSymbol name = false := by
  cases d with
  | symbol other => simpa [mentions, isSymbol] using h
  | _ => rfl

theorem hasParameter_of_mentions {name : String} {d : Datum} (h : d.mentions name = false) :
    d.hasParameter name = false := by
  induction d using Datum.treeInduction with
  | symbol other => simpa [mentions, hasParameter] using h
  | pair car cdr _ ih =>
      obtain ⟨hcar, hcdr⟩ := mentions_pair_eq_false.mp h
      rw [hasParameter, isSymbol_of_mentions hcar, ih hcdr, Bool.or_false]
  | _ => rfl

theorem hasParameter_leaf {d : Datum} (hd : ∀ car cdr, d ≠ .pair car cdr) (name : String) :
    d.hasParameter name = d.isSymbol name := by
  cases d with
  | pair car cdr => exact absurd rfl (hd car cdr)
  | _ => rfl

end Datum

/-- Two values are made one after the other, and a pair of them. -/
def Store.joining {F : Type} (f g : Store F → Value × Store F) (s : Store F) : Value × Store F :=
  let (car, s) := f s
  let (cdr, s) := g s
  s.cons car cdr

namespace Store

variable {F : Type} {d : Datum}

theorem joining_eq (f g : Store F → Value × Store F) (s : Store F) :
    joining f g s = (g (f s).2).2.cons (f s).1 (g (f s).2).1 := rfl

theorem load_ne_pair (s : Store F) (hd : ∀ car cdr, d ≠ .pair car cdr) (r : Ref) :
    (s.load d).1 ≠ .pair r := by
  cases d with
  | pair car cdr => exact absurd rfl (hd car cdr)
  | _ => rintro ⟨⟩

theorem eq_symbol_of_load {s : Store F} {name : String} (h : (s.load d).1 = .symbol name) :
    d = .symbol name := by
  cases d with
  | symbol => cases h; rfl
  | pair =>
      rw [load_pair] at h
      cases h
  | _ => cases h

theorem load_eq_symbol_iff (s : Store F) (d : Datum) (name : String) :
    (s.load d).1 = .symbol name ↔ d.isSymbol name = true := by
  constructor
  · intro h
    rw [eq_symbol_of_load h]
    simp [Datum.isSymbol]
  · intro h
    cases d with
    | symbol other => exact congrArg Value.symbol (of_decide_eq_true h)
    | _ => cases h

theorem eq_nil_of_load {s : Store F} (h : (s.load d).1 = .nil) : d = .nil := by
  cases d with
  | nil => rfl
  | pair =>
      rw [load_pair] at h
      cases h
  | _ => cases h

theorem ofHead?_load (s : Store F) (d : Datum) : Form.ofHead? (s.load d).1 = d.form? := by
  cases d with
  | pair => rw [load_pair]; rfl
  | _ => rfl

theorem load_pair_eq (car cdr : Datum) : (fun s : Store F => s.load (.pair car cdr))
    = joining (fun s => s.load car) fun s => s.load cdr :=
  funext fun s => load_pair s car cdr

end Store

theorem Correspondence.Like.ofHead?_eq {opened : Bool} {F : Type} {p : Correspondence opened F}
    {v v' : Value} (h : p.Like v v') : Form.ofHead? v = Form.ofHead? v' := by
  cases h <;> rfl

namespace Twins

variable {σ : Secret} {F : Type} {p p' : Twins σ F} {hidden : Bool} {v v' : Value}

/-- A relation between values that is kept when stores grow. -/
def Kept {α : Type} (Q : Twins σ F → α → α → Prop) : Prop :=
  ∀ (p p' : Twins σ F) (a b : α), p ≤ p' → Q p a b → Q p' a b

theorem kept_likeData : Kept (σ := σ) (F := F) LikeResults :=
  fun _ _ _ _ hle h => h.mono hle.toGrows

theorem kept_likeData_with (R : Value → Prop) :
    Kept fun (p' : Twins σ F) v v' => p'.LikeData v v' ∧ R v :=
  fun _ _ _ _ hle h => ⟨h.1.mono hle.toGrows, h.2⟩

/-- The values correspond, and are code at a place. -/
def LikeCode (hidden : Bool) (place : CodePlace) (p : Twins σ F) (v v' : Value) : Prop :=
  p.Like v v' ∧ p.Matches hidden place v v'

theorem kept_likeCode (hidden : Bool) (place : CodePlace) :
    Kept (σ := σ) (F := F) (LikeCode hidden place) :=
  fun _ _ _ _ hle h => ⟨h.1.mono hle.toGrows, h.2.mono hle⟩

variable [HostFunctions F]

/-- The two ways to make a value give values that are related, in stores that
correspond. -/
def Makes {α : Type} (p : Twins σ F) (f g : Store F → α × Store F)
    (Q : Twins σ F → α → α → Prop) : Prop :=
  ∃ p', p ≤ p' ∧ p'.Lawful ∧ (f p.left).2 = p'.left ∧ (g p.right).2 = p'.right ∧
    Q p' (f p.left).1 (g p.right).1

theorem Makes.pure {α : Type} {Q : Twins σ F → α → α → Prop} (hp : p.Lawful) {a b : α}
    (h : Q p a b) : p.Makes (fun s => (a, s)) (fun s => (b, s)) Q :=
  ⟨p, le_refl p, hp, rfl, rfl, h⟩

theorem Makes.tallies {α : Type} {f g : Store F → α × Store F} {Q : Twins σ F → α → α → Prop}
    (h : p.Makes f g Q) : Tallies p (change f) (change g) Q := by
  obtain ⟨p', hle, hp', hleft, hright, hQ⟩ := h
  exact .change hle hp' hleft hright hQ

theorem Makes.weaken {α : Type} {f g : Store F → α × Store F} {Q Q' : Twins σ F → α → α → Prop}
    (h : p.Makes f g Q) (hQ : ∀ p' a b, Q p' a b → Q' p' a b) : p.Makes f g Q' := by
  obtain ⟨p', hle, hp', hleft, hright, hold⟩ := h
  exact ⟨p', hle, hp', hleft, hright, hQ _ _ _ hold⟩

/-- Of pairs that are made on both sides, the fields are made first. -/
theorem Makes.joining {f f' g g' : Store F → Value × Store F}
    {Q Q' Q'' : Twins σ F → Value → Value → Prop} (hkept : Kept Q) (hf : p.Makes f f' Q)
    (hg : ∀ p₁, p ≤ p₁ → p₁.Lawful → p₁.Makes g g' Q')
    (hcons : ∀ p₂, p ≤ p₂ → p₂.Lawful → ∀ a a' d d', Q p₂ a a' → Q' p₂ d d' →
      p₂.Makes (fun s => s.cons a d) (fun s => s.cons a' d') Q'') :
    p.Makes (Store.joining f g) (Store.joining f' g') Q'' := by
  obtain ⟨p₁, hle₁, hp₁, hleft₁, hright₁, hQ⟩ := hf
  obtain ⟨p₂, hle₂, hp₂, hleft₂, hright₂, hQ'⟩ := hg p₁ hle₁ hp₁
  obtain ⟨p₃, hle₃, hp₃, hleft₃, hright₃, hQ''⟩ :=
    hcons p₂ (hle₁.trans hle₂) hp₂ _ _ _ _ (hkept _ _ _ _ hle₂ hQ) hQ'
  refine ⟨p₃, (hle₁.trans hle₂).trans hle₃, hp₃, ?_, ?_, ?_⟩
  · rw [Store.joining_eq, hleft₁, hleft₂]
    exact hleft₃
  · rw [Store.joining_eq, hright₁, hright₂]
    exact hright₃
  · rw [Store.joining_eq, Store.joining_eq, hleft₁, hleft₂, hright₁, hright₂]
    exact hQ''

/-! ### Data -/

/-- A step on data makes values that are related. -/
theorem Lawful.makes {α : Type} (hp : p.Lawful) {c : Correspondence σ.values.isNone F}
    (hle : p.toCorrespondence ≤ c) (hc : c.Lawful) {f g : Store F → α × Store F}
    {Q : Twins σ F → α → α → Prop} (hleft : (f p.left).2 = c.left)
    (hright : (g p.right).2 = c.right) (h : Q (p.widen c) (f p.left).1 (g p.right).1) :
    p.Makes f g Q :=
  ⟨p.widen c, grows_widen hle, hp.widen hle hc, hleft, hright, h⟩

theorem Lawful.makes_data (hp : p.Lawful) {a a' d d' : Value} (ha : p.LikeData a a')
    (hd : p.LikeData d d') :
    p.Makes (fun s => s.cons a d) (fun s => s.cons a' d') LikeResults :=
  hp.makes (hp.widens_cons False _ _) (hp.likeData_cons ha hd).1 rfl rfl (hp.likeData_cons ha hd).2

theorem Lawful.load_items_of_forall {items : List Datum}
    (h : ∀ d ∈ items, ∀ p : Twins σ F, p.Lawful →
      p.Makes (fun s => s.load d) (fun s => s.load d) LikeResults) :
    ∀ p : Twins σ F, p.Lawful → p.Makes (Store.loadItems [] items) (Store.loadItems [] items)
      fun p' vs vs' => List.Forall₂ p'.LikeData vs vs' := by
  induction items with
  | nil => exact fun p hp => .pure hp .nil
  | cons d items ih =>
      intro p hp
      obtain ⟨p₁, hle₁, hp₁, hleft₁, hright₁, hd⟩ := h d List.mem_cons_self p hp
      obtain ⟨p₂, hle₂, hp₂, hleft₂, hright₂, hitems⟩ :=
        ih (fun d hd => h d (List.mem_cons_of_mem _ hd)) p₁ hp₁
      refine ⟨p₂, hle₁.trans hle₂, hp₂, ?_, ?_, ?_⟩
      · rw [Store.loadItems_cons, hleft₁]
        exact hleft₂
      · rw [Store.loadItems_cons, hright₁]
        exact hright₂
      · rw [Store.loadItems_cons, Store.loadItems_cons, hleft₁, hright₁]
        exact .cons (hd.mono hle₂.toGrows) hitems

/-- Loaded data correspond. -/
theorem Lawful.load_datum (d : Datum) : ∀ p : Twins σ F, p.Lawful →
    p.Makes (fun s => s.load d) (fun s => s.load d) LikeResults := by
  induction d using Datum.treeInduction with
  | number | symbol | boolean | nil => exact fun p hp => .pure hp (.atom trivial)
  | text t =>
      intro p hp
      refine hp.makes p.widens_newString hp.newString rfl rfl ?_
      show p.newString.LikeData (p.left.newString t).1 (p.right.newString t).1
      rw [Store.newString, Store.newString, hp.strings]
      exact .atom trivial
  | pair car cdr ihcar ihcdr =>
      intro p hp
      rw [Store.load_pair_eq]
      exact .joining kept_likeData (ihcar p hp) (fun p₁ _ hp₁ => ihcdr p₁ hp₁)
        fun p₂ _ hp₂ a a' d d' ha hd => hp₂.makes_data ha hd
  | vector items ih =>
      intro p hp
      obtain ⟨p₁, hle₁, hp₁, hleft₁, hright₁, hitems⟩ := Lawful.load_items_of_forall ih p hp
      have hwidens := p₁.widens_newVector
        (Store.loadItems [] items p.left).1 (Store.loadItems [] items p.right).1
      refine ⟨_, hle₁.trans (grows_widen hwidens), hp₁.widen hwidens (hp₁.newVector hitems), ?_, ?_,
        ?_⟩
      · dsimp only
        rw [Store.load_vector, hleft₁]
        rfl
      · dsimp only
        rw [Store.load_vector, hright₁]
        rfl
      · dsimp only
        rw [Store.load_vector, Store.load_vector, hleft₁, hright₁]
        exact ⟨.vector (.inr ⟨rfl, rfl⟩), by rintro r ⟨⟩⟩

/-! ### Code -/

theorem Makes.with {f g : Store F → Value × Store F} {Q : Twins σ F → Value → Value → Prop}
    (h : p.Makes f g Q) {R : Value → Prop} (hR : R (f p.left).1) :
    p.Makes f g fun p' v v' => Q p' v v' ∧ R v := by
  obtain ⟨p', hle, hp', hleft, hright, hold⟩ := h
  exact ⟨p', hle, hp', hleft, hright, hold, hR⟩

/-- New pairs of code correspond, if their fields do. -/
theorem Lawful.makes_code (hp : p.Lawful) {a a' d d' : Value} (ha : p.Like a a')
    (hd : p.Like d d') {Q : Twins σ F → Value → Value → Prop}
    (h : ∀ p₁ r q, p ≤ p₁ → p₁.Code r q ⟨a, d⟩ ⟨a', d'⟩ → p₁.cells r q → Q p₁ (.pair r) (.pair q)) :
    p.Makes (fun s => s.cons a d) (fun s => s.cons a' d')
      fun p' v v' => p'.Like v v' ∧ Q p' v v' := by
  have hwidens := hp.widens_cons True ⟨a, d⟩ ⟨a', d'⟩
  have htwin : (p.cons True ⟨a, d⟩ ⟨a', d'⟩).cells p.left.cells.size p.right.cells.size :=
    .inr ⟨rfl, rfl⟩
  exact hp.makes hwidens (hp.cons ha hd fun h => absurd trivial h) rfl rfl ⟨.pair htwin,
    h _ _ _ (grows_widen hwidens) ⟨.inr ⟨trivial, rfl⟩, .inr ⟨trivial, rfl⟩,
      Array.getElem?_push_size, Array.getElem?_push_size⟩ htwin⟩

/-- A datum that is no pair is loaded as a value that is none. -/
theorem Lawful.load_leaf (hp : p.Lawful) {d : Datum} (hd : ∀ car cdr, d ≠ .pair car cdr) :
    p.Makes (fun s => s.load d) (fun s => s.load d) fun p' v v' => p'.LikeData v v' ∧
      (∀ r, v ≠ .pair r) ∧ (v = .symbol σ.name ↔ d.isSymbol σ.name = true) :=
  (hp.load_datum d).with ⟨Store.load_ne_pair p.left hd, Store.load_eq_symbol_iff p.left d σ.name⟩

/-- Loaded parameters correspond, and have the secret name among them or
not. -/
theorem Lawful.load_params (d : Datum) : ∀ p : Twins σ F, p.Lawful →
    p.Makes (fun s => s.load d) (fun s => s.load d) fun p' v v' =>
      p'.Like v v' ∧ p'.Params (d.hasParameter σ.name) v v' := by
  have hleaf {d : Datum} {p : Twins σ F} (hp : p.Lawful) (hd : ∀ car cdr, d ≠ .pair car cdr) :
      p.Makes (fun s => s.load d) (fun s => s.load d) fun p' v v' =>
        p'.Like v v' ∧ p'.Params (d.hasParameter σ.name) v v' := by
    refine (hp.load_leaf hd).weaken fun p' v v' ⟨hdata, hv, hname⟩ => ⟨hdata.like, ?_⟩
    have hfound : d.hasParameter σ.name = decide (v = .symbol σ.name) := by
      rw [Datum.hasParameter_leaf hd, Bool.eq_iff_iff, decide_eq_true_eq, hname]
    rw [hfound]
    exact .last hv hdata.like
  induction d using Datum.treeInduction with
  | number | text | boolean | nil | symbol | vector => exact fun p hp => hleaf hp (by simp)
  | pair car cdr _ ihcdr =>
      intro p hp
      rw [Store.load_pair_eq]
      refine .joining (kept_likeData_with fun v => v = .symbol σ.name ↔ car.isSymbol σ.name = true)
        ((hp.load_datum car).with (Store.load_eq_symbol_iff p.left car σ.name))
        (fun p₁ _ hp₁ => ihcdr p₁ hp₁) ?_
      rintro p₂ - hp₂ a a' d d' ⟨ha, hname⟩ ⟨hd, hparams⟩
      refine hp₂.makes_code ha.like hd fun p₃ r q hle₃ hcode _ => ?_
      have hfirst : car.isSymbol σ.name = decide (a = .symbol σ.name) := by
        rw [Bool.eq_iff_iff, decide_eq_true_eq, hname]
      rw [Datum.hasParameter, hfirst]
      exact .link hcode (ha.like.mono hle₃.toGrows) (hparams.mono hle₃)

theorem Lawful.makes_likeCode (hp : p.Lawful) {a a' d d' : Value} (ha : p.Like a a')
    (hd : p.Like d d') {place : CodePlace} (h : ∀ p₁ r q, p ≤ p₁ → p₁.Code r q ⟨a, d⟩ ⟨a', d'⟩ →
      p₁.cells r q → p₁.Matches hidden place (.pair r) (.pair q)) :
    p.Makes (fun s => s.cons a d) (fun s => s.cons a' d') (LikeCode hidden place) :=
  hp.makes_code ha hd h

/-- A datum that is no pair is code at every place, unless it is the secret
name where that has to be avoided. -/
theorem Lawful.load_leaf_code (hp : p.Lawful) {d : Datum} (hd : ∀ car cdr, d ≠ .pair car cdr)
    {place : CodePlace}
    (hname : place = .expression → hidden = true → d.isSymbol σ.name = false) :
    p.Makes (fun s => s.load d) (fun s => s.load d) (LikeCode hidden place) := by
  refine (hp.load_leaf hd).weaken fun p' v v' ⟨hdata, hv, hsymbol⟩ =>
    ⟨hdata.like, .leaf hv hdata.like fun hplace hhidden heq => ?_⟩
  exact absurd (hsymbol.mp heq) (by simp [hname hplace hhidden])

/-- Quoted data may mention the secret name. -/
theorem Lawful.load_quotation (hp : p.Lawful) (d : Datum) :
    p.Makes (fun s => s.load d) (fun s => s.load d) (LikeCode hidden .quotation) := by
  cases d with
  | pair car cdr =>
      rw [Store.load_pair_eq]
      by_cases hnil : cdr = .nil
      · subst hnil
        have hrest (p₁ : Twins σ F) (hp₁ : p₁.Lawful) :
            p₁.Makes (fun s => s.load .nil) (fun s => s.load .nil)
              fun _ d d' => d = .nil ∧ d' = .nil := .pure hp₁ ⟨rfl, rfl⟩
        refine .joining kept_likeData (hp.load_datum car) (fun p₁ _ hp₁ => hrest p₁ hp₁) ?_
        rintro p₂ - hp₂ a a' d d' ha ⟨rfl, rfl⟩
        refine hp₂.makes_likeCode ha.like (.atom (v := .nil) trivial) fun p₃ r q hle₃ hcode _ => ?_
        exact .quotation hcode rfl rfl (ha.mono hle₃.toGrows)
      · refine .joining kept_likeData (hp.load_datum car) (fun p₁ _ hp₁ =>
          (hp₁.load_params cdr).with (R := fun d => d ≠ .nil) fun heq => hnil ?_) ?_
        · exact Store.eq_nil_of_load heq
        rintro p₂ - hp₂ a a' d d' ha ⟨⟨hlike, hparams⟩, hmore⟩
        refine hp₂.makes_likeCode ha.like hlike fun p₃ r q hle₃ hcode _ => ?_
        exact .misquotation hcode hmore (hparams.mono hle₃)
  | _ => exact hp.load_leaf_code (by simp) (by rintro ⟨⟩)

/-- Whatever the stores are, the loaded datum does the same on both sides at
this place. -/
def LoadsAlike (σ : Secret) (F : Type) [HostFunctions F] (hidden : Bool) (place : CodePlace)
    (d : Datum) : Prop :=
  ∀ p : Twins σ F, p.Lawful →
    p.Makes (fun s => s.load d) (fun s => s.load d) (LikeCode hidden place)

namespace LoadsAlike

variable {car cdr : Datum}

theorem form {form : Form} (hform : car.form? = some form)
    (hcdr : LoadsAlike σ F hidden form.place cdr) :
    LoadsAlike σ F hidden .expression (.pair car cdr) := by
  intro p hp
  rw [Store.load_pair_eq]
  refine .joining (kept_likeData_with fun v => Form.ofHead? v = some form)
    ((hp.load_datum car).with ((Store.ofHead?_load _ _).trans hform))
    (fun p₁ _ hp₁ => hcdr p₁ hp₁) ?_
  rintro p₂ - hp₂ a a' d d' ⟨ha, hhead⟩ ⟨hlike, htail⟩
  refine hp₂.makes_likeCode ha.like hlike fun p₃ r q hle₃ hcode _ => ?_
  exact .form hcode hhead (ha.like.ofHead?_eq.symm.trans hhead) (htail.mono hle₃)

/-- The two pairs of a call correspond, so it may be shown. -/
theorem call (hform : car.form? = none) (hcar : LoadsAlike σ F hidden .expression car)
    (hcdr : LoadsAlike σ F hidden .operands cdr) :
    LoadsAlike σ F hidden .expression (.pair car cdr) := by
  intro p hp
  rw [Store.load_pair_eq]
  refine .joining (Q := fun p' v v' => LikeCode hidden .expression p' v v' ∧
      Form.ofHead? v = none)
    (fun _ _ _ _ hle h => ⟨kept_likeCode _ _ _ _ _ _ hle h.1, h.2⟩)
    ((hcar p hp).with ((Store.ofHead?_load _ _).trans hform))
    (fun p₁ _ hp₁ => hcdr p₁ hp₁) ?_
  rintro p₂ - hp₂ a a' d d' ⟨⟨ha, hfn⟩, hhead⟩ ⟨hlike, htail⟩
  refine hp₂.makes_likeCode ha hlike fun p₃ r q hle₃ hcode htwin => ?_
  exact .call hcode hhead (ha.ofHead?_eq.symm.trans hhead) (hfn.mono hle₃) (htail.mono hle₃)
    (.inl htwin)

theorem operands (hcar : LoadsAlike σ F hidden .expression car)
    (hcdr : LoadsAlike σ F hidden .operands cdr) :
    LoadsAlike σ F hidden .operands (.pair car cdr) := by
  intro p hp
  rw [Store.load_pair_eq]
  refine .joining (kept_likeCode _ _) (hcar p hp) (fun p₁ _ hp₁ => hcdr p₁ hp₁) ?_
  rintro p₂ - hp₂ a a' d d' ⟨ha, hfirst⟩ ⟨hlike, hrest⟩
  refine hp₂.makes_likeCode ha hlike fun p₃ r q hle₃ hcode _ => ?_
  exact .operands hcode (hfirst.mono hle₃) (hrest.mono hle₃)

theorem assignment (htarget : hidden = true → car.isSymbol σ.name = false)
    (hcdr : LoadsAlike σ F hidden .operands cdr) :
    LoadsAlike σ F hidden .assignment (.pair car cdr) := by
  intro p hp
  rw [Store.load_pair_eq]
  refine .joining (kept_likeData_with fun v => v = .symbol σ.name ↔ car.isSymbol σ.name = true)
    ((hp.load_datum car).with (Store.load_eq_symbol_iff p.left car σ.name))
    (fun p₁ _ hp₁ => hcdr p₁ hp₁) ?_
  rintro p₂ - hp₂ a a' d d' ⟨ha, hname⟩ ⟨hlike, hrest⟩
  refine hp₂.makes_likeCode ha.like hlike fun p₃ r q hle₃ hcode _ => ?_
  refine .assignment hcode (ha.like.mono hle₃.toGrows) (fun hhidden heq => ?_) (hrest.mono hle₃)
  exact absurd (hname.mp heq) (by simp [htarget hhidden])

/-- The body is read in the mode that the parameters leave. -/
theorem abstraction (hcdr : LoadsAlike σ F (hidden && !car.hasParameter σ.name) .operands cdr) :
    LoadsAlike σ F hidden .abstraction (.pair car cdr) := by
  intro p hp
  rw [Store.load_pair_eq]
  refine .joining (fun _ _ _ _ hle h => ⟨h.1.mono hle.toGrows, h.2.mono hle⟩) (hp.load_params car)
    (fun p₁ _ hp₁ => hcdr p₁ hp₁) ?_
  rintro p₂ - hp₂ a a' d d' ⟨ha, hparams⟩ ⟨hlike, hbody⟩
  refine hp₂.makes_likeCode ha hlike fun p₃ r q hle₃ hcode _ => ?_
  exact .abstraction hcode (ha.mono hle₃.toGrows) (hparams.mono hle₃) (hbody.mono hle₃)

end LoadsAlike

/-- A loaded datum is code that does the same on both sides, unless it
mentions the secret name where that has to be avoided. -/
theorem load_code (d : Datum) (hd : hidden = true → d.mentions σ.name = false) :
    ∀ place, LoadsAlike σ F hidden place d := by
  induction d using Datum.treeInduction with
  | number | text | boolean | nil | symbol | vector =>
      exact fun place p hp => hp.load_leaf_code (by simp) fun _ hhidden =>
        Datum.isSymbol_of_mentions (hd hhidden)
  | pair car cdr ihcar ihcdr =>
      have hdcar : hidden = true → car.mentions σ.name = false :=
        fun hhidden => (Datum.mentions_pair_eq_false.mp (hd hhidden)).1
      have hcar := ihcar hdcar
      have hcdr := ihcdr fun hhidden => (Datum.mentions_pair_eq_false.mp (hd hhidden)).2
      intro place
      cases place with
      | expression =>
          cases hform : car.form? with
          | some form => exact .form hform (hcdr form.place)
          | none => exact .call hform (hcar .expression) (hcdr .operands)
      | operands => exact .operands (hcar .expression) (hcdr .operands)
      | assignment =>
          exact .assignment (fun h => Datum.isSymbol_of_mentions (hdcar h)) (hcdr .operands)
      | abstraction =>
          -- No parameter ends hidden mode, because none is the secret name.
          have hmode : (hidden && !car.hasParameter σ.name) = hidden := by
            cases hidden with
            | false => rfl
            | true => rw [Datum.hasParameter_of_mentions (hdcar rfl)]; rfl
          exact .abstraction (hmode.symm ▸ hcdr .operands)
      | quotation => exact fun p hp => hp.load_quotation _

end Twins

end MiniScheme
