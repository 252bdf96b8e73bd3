import MiniScheme.Proofs.FrameStability
import MiniScheme.Proofs.HostFunctions

/-!
# `MiniScheme.Proofs.Twins`: two stores side by side

Two runs may do the same while their stores differ: objects have other places,
a frame is there that the other store lacks, and the code of one has a value
in it where the code of the other has a name. This file says when two stores
correspond all the same.

The stores may disagree on one name, the `Secret`. Where it is seen, the runs
are in *hidden* mode: their code must not look the name up, except that the
code on the left may have the name where the code on the right has its quoted
value (`Twins.Matches`). A procedure with a parameter of that name leaves
hidden mode.

* `Twins` are two stores and the objects in them that correspond, frames among
  them. Data correspond as in any `Correspondence`. Programs hold data only, so
  they change no code, and code stays what it is.
* `Twins.Scope` environments correspond: names mean the same in them, the
  secret one aside in hidden mode.
* `Twins.Lawful` is what has to hold of the objects that correspond. The
  functions of the host that are there have to be uniform.

Vectors may be opened unless the secret name has a value of its own.

Correspondences grow with the stores (`Twins.Grows`), and everything above is
kept when they do.
-/

set_option autoImplicit false

namespace MiniScheme

/-! ### Correspondences -/

/-- A name that two runs need not agree on. If values are given for it, the
name has the first one on the left, and the second one is quoted in its place
on the right. -/
structure Secret where
  name : String
  values : Option (Value × Value) := none

/-- Where code stands in an expression. -/
inductive CodePlace where
  | expression
  /-- A list of expressions, or the rest of one. -/
  | operands
  /-- The operands of `set!`. -/
  | assignment
  /-- The operands of `lambda`. -/
  | abstraction
  /-- The operands of `quote`. -/
  | quotation
deriving DecidableEq

/-- The place of the operands of a special form. -/
def Form.place : Form → CodePlace
  | .quote => .quotation
  | .lambda => .abstraction
  | .assignment => .assignment
  | .conditional | .begin => .operands

/-- Two stores, and which of their objects correspond, frames included. -/
structure Twins (σ : Secret) (F : Type := Operation) extends
    Correspondence σ.values.isNone F where
  /-- Frames that correspond; those that are blurred may disagree on the
  secret name. -/
  frames : (blurred : Bool) → Ref → Ref → Prop
  /-- Frames on the left that hold the secret name, and that the right store
  lacks. -/
  hidden : Ref → Prop

namespace Twins

variable {σ : Secret} {F : Type}

/-! ### Code -/

/-- The two pairs are code, with these fields. -/
structure Code (p : Twins σ F) (r q : Ref) (c d : Cell) : Prop where
  left : p.leftCode r
  right : p.rightCode q
  fields : p.left.cells[r]? = some c
  fields' : p.right.cells[q]? = some d

/-- Chains of code that correspond element by element, as parameters do. The
mark says whether the secret name is among the elements or is the end. -/
inductive Params (p : Twins σ F) : Bool → Value → Value → Prop
  | last {v v' : Value} (single : ∀ r, v ≠ .pair r) (like : p.Like v v') :
      Params p (v = .symbol σ.name) v v'
  | link {r q : Ref} {c d : Cell} {found : Bool} (code : p.Code r q c d)
      (like : p.Like c.car d.car) (rest : Params p found c.cdr d.cdr) :
      Params p (c.car = .symbol σ.name || found) (.pair r) (.pair q)

/-- The chain of code on the left is a proper list. -/
inductive Proper (p : Twins σ F) : Value → Prop
  | nil : Proper p .nil
  | link {r : Ref} {c : Cell} (code : p.leftCode r) (fields : p.left.cells[r]? = some c)
      (rest : Proper p c.cdr) : Proper p (.pair r)

/-- Code at the same place does the same on both sides. In hidden mode it does
not mention the secret name, or has its value instead on the right. -/
inductive Matches (p : Twins σ F) : (hidden : Bool) → CodePlace → Value → Value → Prop
  | leaf {hidden : Bool} {place : CodePlace} {v v' : Value} (single : ∀ r, v ≠ .pair r)
      (like : p.Like v v')
      (other : place = .expression → hidden = true → v ≠ .symbol σ.name) :
      Matches p hidden place v v'
  /-- The name on the left, and its quoted value on the right. -/
  | secret {v v' : Value} {q q' : Ref} (known : σ.values = some (v, v'))
      (code : p.rightCode q) (fields : p.right.cells[q]? = some ⟨.symbol "quote", .pair q'⟩)
      (code' : p.rightCode q') (fields' : p.right.cells[q']? = some ⟨v', .nil⟩) :
      Matches p true .expression (.symbol σ.name) (.pair q)
  | form {hidden : Bool} {r q : Ref} {c d : Cell} {form : Form} (code : p.Code r q c d)
      (head : Form.ofHead? c.car = some form) (head' : Form.ofHead? d.car = some form)
      (tail : Matches p hidden form.place c.cdr d.cdr) :
      Matches p hidden .expression (.pair r) (.pair q)
  /-- A call is shown if its operands are no proper list. -/
  | call {hidden : Bool} {r q : Ref} {c d : Cell} (code : p.Code r q c d)
      (head : Form.ofHead? c.car = none) (head' : Form.ofHead? d.car = none)
      (fn : Matches p hidden .expression c.car d.car)
      (tail : Matches p hidden .operands c.cdr d.cdr)
      (shown : p.cells r q ∨ p.Proper c.cdr) :
      Matches p hidden .expression (.pair r) (.pair q)
  | operands {hidden : Bool} {r q : Ref} {c d : Cell} (code : p.Code r q c d)
      (first : Matches p hidden .expression c.car d.car)
      (rest : Matches p hidden .operands c.cdr d.cdr) :
      Matches p hidden .operands (.pair r) (.pair q)
  | assignment {hidden : Bool} {r q : Ref} {c d : Cell} (code : p.Code r q c d)
      (target : p.Like c.car d.car) (other : hidden = true → c.car ≠ .symbol σ.name)
      (rest : Matches p hidden .operands c.cdr d.cdr) :
      Matches p hidden .assignment (.pair r) (.pair q)
  /-- A parameter of the secret name ends hidden mode. -/
  | abstraction {hidden found : Bool} {r q : Ref} {c d : Cell} (code : p.Code r q c d)
      (formals : p.Like c.car d.car) (params : p.Params found c.car d.car)
      (body : Matches p (hidden && !found) .operands c.cdr d.cdr) :
      Matches p hidden .abstraction (.pair r) (.pair q)
  | quotation {hidden : Bool} {r q : Ref} {c d : Cell} (code : p.Code r q c d)
      (rest : c.cdr = .nil) (rest' : d.cdr = .nil) (datum : p.LikeData c.car d.car) :
      Matches p hidden .quotation (.pair r) (.pair q)
  | misquotation {hidden found : Bool} {r q : Ref} {c d : Cell} (code : p.Code r q c d)
      (more : c.cdr ≠ .nil) (rest : p.Params found c.cdr d.cdr) :
      Matches p hidden .quotation (.pair r) (.pair q)

/-! ### Environments -/

/-- The environments correspond: they consist of frames that do, and of hidden
ones. The mark says whether the secret name has to be avoided. -/
inductive Scope (p : Twins σ F) : (hidden : Bool) → Ref → Ref → Prop
  | outermost {blurred : Bool} {r q : Ref} {f f' : Frame} (twin : p.frames blurred r q)
      (frame : p.left.frames[r]? = some f) (frame' : p.right.frames[q]? = some f')
      (outer : f.outer = none) (outer' : f'.outer = none) : Scope p blurred r q
  | inner {hidden : Bool} {r q o o' : Ref} {f f' : Frame} (twin : p.frames false r q)
      (frame : p.left.frames[r]? = some f) (frame' : p.right.frames[q]? = some f')
      (outer : f.outer = some o) (outer' : f'.outer = some o') (around : Scope p hidden o o') :
      Scope p (hidden && !f.binds σ.name) r q
  | hidden {hidden : Bool} {r q o : Ref} {f : Frame} (alone : p.hidden r)
      (frame : p.left.frames[r]? = some f) (outer : f.outer = some o)
      (around : Scope p hidden o q) : Scope p true r q

/-! ### Growth -/

/-- The second correspondence has all that the first one has. Code stays code,
and keeps its fields; frames keep their names. -/
structure Grows (p p' : Twins σ F) : Prop extends
    Correspondence.Grows p.toCorrespondence p'.toCorrespondence where
  frames : ∀ b r q, p.frames b r q → p'.frames b r q
  hidden : ∀ r, p.hidden r → p'.hidden r
  leftFrames : p.left.FramesKept p'.left
  rightFrames : p.right.FramesKept p'.right

instance : Preorder (Twins σ F) where
  le := Grows
  le_refl p :=
    { Correspondence.Grows.refl p.toCorrespondence with
      frames := fun _ _ _ h => h
      hidden := fun _ h => h
      leftFrames := .of_eq rfl
      rightFrames := .of_eq rfl }
  le_trans p p₁ p₂ h k :=
    { Correspondence.Grows.trans h.toGrows k.toGrows with
      frames := fun b r q hr => k.frames b r q (h.frames b r q hr)
      hidden := fun r hr => k.hidden r (h.hidden r hr)
      leftFrames := h.leftFrames.trans k.leftFrames
      rightFrames := h.rightFrames.trans k.rightFrames }

section Mono

variable {p p' : Twins σ F} {v v' : Value}

theorem Code.mono (hle : p ≤ p') {r q : Ref} {c d : Cell} (h : p.Code r q c d) :
    p'.Code r q c d := by
  obtain ⟨hleft, hfields⟩ := hle.leftCode r h.left
  obtain ⟨hright, hfields'⟩ := hle.rightCode q h.right
  exact ⟨hleft, hright, hfields.trans h.fields, hfields'.trans h.fields'⟩

theorem Params.mono (hle : p ≤ p') {found : Bool} (h : p.Params found v v') :
    p'.Params found v v' := by
  induction h with
  | last single like => exact .last single (like.mono hle.toGrows)
  | link code like _ ih => exact .link (code.mono hle) (like.mono hle.toGrows) ih

theorem Proper.mono (hle : p ≤ p') (h : p.Proper v) : p'.Proper v := by
  induction h with
  | nil => exact .nil
  | link code fields _ ih =>
      obtain ⟨hcode, hfields⟩ := hle.leftCode _ code
      exact .link hcode (hfields.trans fields) ih

/-- Code still does the same on both sides. -/
theorem Matches.mono (hle : p ≤ p') {hidden : Bool} {place : CodePlace}
    (h : p.Matches hidden place v v') : p'.Matches hidden place v v' := by
  induction h with
  | leaf single like other => exact .leaf single (like.mono hle.toGrows) other
  | secret known code fields code' fields' =>
      obtain ⟨hcode, hfields⟩ := hle.rightCode _ code
      obtain ⟨hcode', hfields'⟩ := hle.rightCode _ code'
      exact .secret known hcode (hfields.trans fields) hcode' (hfields'.trans fields')
  | form code head head' _ ih => exact .form (code.mono hle) head head' ih
  | call code head head' _ _ shown ihfn ihtail =>
      exact .call (code.mono hle) head head' ihfn ihtail
        (shown.imp (hle.cells _ _) fun hproper => hproper.mono hle)
  | operands code _ _ ihfirst ihrest => exact .operands (code.mono hle) ihfirst ihrest
  | assignment code target other _ ih =>
      exact .assignment (code.mono hle) (target.mono hle.toGrows) other ih
  | abstraction code formals params _ ih =>
      exact .abstraction (code.mono hle) (formals.mono hle.toGrows) (params.mono hle) ih
  | quotation code rest rest' datum =>
      exact .quotation (code.mono hle) rest rest' (datum.mono hle.toGrows)
  | misquotation code more rest => exact .misquotation (code.mono hle) more (rest.mono hle)

/-- Environments still correspond, since frames keep their names. -/
theorem Scope.mono (hle : p ≤ p') {hidden : Bool} {e e' : Ref} (h : p.Scope hidden e e') :
    p'.Scope hidden e e' := by
  induction h with
  | outermost twin frame frame' outer outer' =>
      obtain ⟨g, hg, -, houter⟩ := hle.leftFrames _ _ frame
      obtain ⟨g', hg', -, houter'⟩ := hle.rightFrames _ _ frame'
      exact .outermost (hle.frames _ _ _ twin) hg hg' (houter.trans outer) (houter'.trans outer')
  | @inner hidden r q o o' f f' twin frame frame' outer outer' _ ih =>
      obtain ⟨g, hg, hnames, houter⟩ := hle.leftFrames _ _ frame
      obtain ⟨g', hg', -, houter'⟩ := hle.rightFrames _ _ frame'
      have hbinds : f.binds σ.name = g.binds σ.name := by
        rw [Bool.eq_iff_iff, Store.binds_iff, Store.binds_iff, hnames]
      rw [hbinds]
      exact .inner (hle.frames _ _ _ twin) hg hg' (houter.trans outer) (houter'.trans outer') ih
  | hidden alone frame outer _ ih =>
      obtain ⟨g, hg, -, houter⟩ := hle.leftFrames _ _ frame
      exact .hidden (hle.hidden _ alone) hg (houter.trans outer) ih

end Mono

/-! ### Laws -/

/-- The two closures do the same when they are called. -/
inductive LikeClosure (p : Twins σ F) (k k' : Closure) : Prop
  | intro {hidden found : Bool} (scope : p.Scope hidden k.frame k'.frame)
      (formals : p.Like k.formals k'.formals) (params : p.Params found k.formals k'.formals)
      (body : p.Matches (hidden && !found) .operands k.body k'.body)

def ClosureLaw (p : Twins σ F) (r q : Ref) : Prop :=
  ∃ k k', p.left.closures[r]? = some k ∧ p.right.closures[q]? = some k' ∧ p.LikeClosure k k'

/-- The two frames bind the same names to data that correspond. -/
def LikeFrame (p : Twins σ F) (blurred : Bool) (f f' : Frame) : Prop :=
  ∀ name, (blurred = true → name ≠ σ.name) →
    Option.Rel p.LikeData (f.value? name) (f'.value? name)

def FrameLaw (p : Twins σ F) (blurred : Bool) (r q : Ref) : Prop :=
  ∃ f f', p.left.frames[r]? = some f ∧ p.right.frames[q]? = some f' ∧ p.LikeFrame blurred f f'

/-- The frame binds the secret name to its value, and nothing else. -/
def HiddenLaw (p : Twins σ F) (r : Ref) : Prop :=
  ∃ o v v', σ.values = some (v, v') ∧ p.left.frames[r]? = some ⟨[(σ.name, v)], some o⟩

/-- What corresponds is alike, every object corresponds to one other at most,
and the functions of the host are uniform. -/
structure Lawful [HostFunctions F] (p : Twins σ F) : Prop extends
    Correspondence.Lawful p.toCorrespondence where
  closure : ∀ r q, p.closures r q → p.ClosureLaw r q
  frame : ∀ b r q, p.frames b r q → p.FrameLaw b r q
  blurred : ∀ r q, p.frames true r q → σ.values = none
  hidden : ∀ r, p.hidden r → p.HiddenLaw r ∧ ∀ b q, ¬ p.frames b r q
  secret : ∀ v v', σ.values = some (v, v') → p.LikeData v v'
  frames_unique : Relator.BiUnique fun r q => ∃ b, p.frames b r q
  hosts : ∀ primitive ∈ p.left.primitives, Uniform σ.values.isNone primitive.operation

instance [HostFunctions F] : Pairing (Twins σ F) σ.values.isNone F where
  base := toCorrespondence
  Lawful := Lawful
  lawful_base h := h.toLawful

section Mono

variable {p p' : Twins σ F}

theorem LikeClosure.mono (hle : p ≤ p') {k k' : Closure} (h : p.LikeClosure k k') :
    p'.LikeClosure k k' := by
  obtain ⟨scope, formals, params, body⟩ := h
  exact ⟨scope.mono hle, formals.mono hle.toGrows, params.mono hle, body.mono hle⟩

theorem LikeFrame.mono (hle : p ≤ p') {b : Bool} {f f' : Frame} (h : p.LikeFrame b f f') :
    p'.LikeFrame b f f' := by
  intro name hname
  have hvalues := h name hname
  generalize f.value? name = found, f'.value? name = found' at hvalues ⊢
  cases hvalues with
  | none => exact .none
  | some hdata => exact .some (hdata.mono hle.toGrows)

end Mono

end Twins

end MiniScheme
