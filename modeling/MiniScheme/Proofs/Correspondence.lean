import Mathlib.Logic.Relator
import MiniScheme.Proofs.Discipline

/-!
# `MiniScheme.Proofs.Correspondence`: objects of two stores that correspond

Two stores may hold the same data though their objects have other places. A
`Correspondence` says which pairs, vectors and closures of one go with which
of the other, and `Correspondence.Like` which values do.

Some of the pairs are code. Programs hold data only (`Correspondence.LikeData`),
and so does a function of the host that a program calls: it can take the fields
of a pair and the elements of a vector, and change the pair, but closures stay
shut to it, apart from the text they are written as.

* `Correspondence.Lawful` is what has to hold of objects that correspond.
* `Correspondence.Grows` says that a second correspondence has all that the
  first one has.
* `p ≤ p'` says in addition that procedures and variables are as they were,
  which is what a step on data does.

Whether vectors may be opened is a mark of the correspondence. If they may,
their elements are data.
-/

set_option autoImplicit false

namespace MiniScheme

/-- Two stores, and which of their objects correspond. The mark says whether
programs may hold the elements of vectors. -/
structure Correspondence (opened : Bool) (F : Type := Operation) where
  left : Store F
  right : Store F
  cells : Ref → Ref → Prop
  vectors : Ref → Ref → Prop
  closures : Ref → Ref → Prop
  /-- The pairs on the left that are code. -/
  leftCode : Ref → Prop
  rightCode : Ref → Prop

namespace Correspondence

variable {opened : Bool} {F : Type} {p p' p'' : Correspondence opened F}

/-- The values correspond. -/
inductive Like (p : Correspondence opened F) : Value → Value → Prop
  | atom {v : Value} (simple : v.IsAtom) : Like p v v
  | primitive (r : Ref) : Like p (.primitive r) (.primitive r)
  | pair {r q : Ref} (twin : p.cells r q) : Like p (.pair r) (.pair q)
  | vector {r q : Ref} (twin : p.vectors r q) : Like p (.vector r) (.vector q)
  | closure {r q : Ref} (twin : p.closures r q) : Like p (.closure r) (.closure q)

/-- The value on the left is no code. -/
def Free (p : Correspondence opened F) (v : Value) : Prop :=
  ∀ r, v = .pair r → r < p.left.cells.size ∧ ¬ p.leftCode r

/-- The values correspond and programs may hold them. -/
structure LikeData (p : Correspondence opened F) (v v' : Value) : Prop where
  like : p.Like v v'
  free : p.Free v

theorem LikeData.atom {v : Value} (h : v.IsAtom) : p.LikeData v v :=
  ⟨.atom h, by rintro r rfl; exact h.elim⟩

/-! ### Growth -/

/-- The second correspondence has all that the first one has. Code stays code,
and keeps its fields. -/
structure Grows (p p' : Correspondence opened F) : Prop where
  cells : ∀ r q, p.cells r q → p'.cells r q
  vectors : ∀ r q, p.vectors r q → p'.vectors r q
  closures : ∀ r q, p.closures r q → p'.closures r q
  leftSize : p.left.cells.size ≤ p'.left.cells.size
  leftCode : ∀ r, p.leftCode r → p'.leftCode r ∧ p'.left.cells[r]? = p.left.cells[r]?
  leftOld : ∀ r < p.left.cells.size, p'.leftCode r → p.leftCode r
  rightSize : p.right.cells.size ≤ p'.right.cells.size
  rightCode : ∀ r, p.rightCode r → p'.rightCode r ∧ p'.right.cells[r]? = p.right.cells[r]?
  rightOld : ∀ r < p.right.cells.size, p'.rightCode r → p.rightCode r

protected theorem Grows.refl (p : Correspondence opened F) : p.Grows p where
  cells _ _ h := h
  vectors _ _ h := h
  closures _ _ h := h
  leftSize := Nat.le_refl _
  leftCode _ h := ⟨h, rfl⟩
  leftOld _ _ h := h
  rightSize := Nat.le_refl _
  rightCode _ h := ⟨h, rfl⟩
  rightOld _ _ h := h

protected theorem Grows.trans (h : p.Grows p') (k : p'.Grows p'') : p.Grows p'' where
  cells r q hr := k.cells r q (h.cells r q hr)
  vectors r q hr := k.vectors r q (h.vectors r q hr)
  closures r q hr := k.closures r q (h.closures r q hr)
  leftSize := Nat.le_trans h.leftSize k.leftSize
  leftCode r hr := by
    obtain ⟨hcode, hfields⟩ := h.leftCode r hr
    obtain ⟨hcode', hfields'⟩ := k.leftCode r hcode
    exact ⟨hcode', hfields'.trans hfields⟩
  leftOld r hr hcode := h.leftOld r hr (k.leftOld r (Nat.lt_of_lt_of_le hr h.leftSize) hcode)
  rightSize := Nat.le_trans h.rightSize k.rightSize
  rightCode r hr := by
    obtain ⟨hcode, hfields⟩ := h.rightCode r hr
    obtain ⟨hcode', hfields'⟩ := k.rightCode r hcode
    exact ⟨hcode', hfields'.trans hfields⟩
  rightOld r hr hcode := h.rightOld r hr (k.rightOld r (Nat.lt_of_lt_of_le hr h.rightSize) hcode)

/-- The second correspondence has all that the first one has, and procedures
and variables are as they were. -/
structure Widens (p p' : Correspondence opened F) : Prop extends Grows p p' where
  sameClosures : p'.closures = p.closures
  leftClosures : p'.left.closures = p.left.closures
  leftFrames : p'.left.frames = p.left.frames
  leftPrimitives : p'.left.primitives = p.left.primitives
  rightClosures : p'.right.closures = p.right.closures
  rightFrames : p'.right.frames = p.right.frames

instance : Preorder (Correspondence opened F) where
  le := Widens
  le_refl p := ⟨.refl p, rfl, rfl, rfl, rfl, rfl, rfl⟩
  le_trans _ _ _ h k :=
    { toGrows := h.toGrows.trans k.toGrows
      sameClosures := k.sameClosures.trans h.sameClosures
      leftClosures := k.leftClosures.trans h.leftClosures
      leftFrames := k.leftFrames.trans h.leftFrames
      leftPrimitives := k.leftPrimitives.trans h.leftPrimitives
      rightClosures := k.rightClosures.trans h.rightClosures
      rightFrames := k.rightFrames.trans h.rightFrames }

section Mono

variable {v v' : Value}

theorem Like.mono (hle : p.Grows p') (h : p.Like v v') : p'.Like v v' := by
  cases h with
  | atom simple => exact .atom simple
  | primitive r => exact .primitive r
  | pair twin => exact .pair (hle.cells _ _ twin)
  | vector twin => exact .vector (hle.vectors _ _ twin)
  | closure twin => exact .closure (hle.closures _ _ twin)

theorem Free.mono (hle : p.Grows p') (h : p.Free v) : p'.Free v := by
  intro r hr
  obtain ⟨hlt, hfree⟩ := h r hr
  exact ⟨Nat.lt_of_lt_of_le hlt hle.leftSize, fun hcode => hfree (hle.leftOld r hlt hcode)⟩

theorem LikeData.mono (hle : p.Grows p') (h : p.LikeData v v') : p'.LikeData v v' :=
  ⟨h.like.mono hle, h.free.mono hle⟩

end Mono

/-! ### Laws -/

/-- The two pairs have fields that correspond, and those of data are data. -/
def CellLaw (p : Correspondence opened F) (r q : Ref) : Prop :=
  ∃ c d, p.left.cells[r]? = some c ∧ p.right.cells[q]? = some d ∧
    p.Like c.car d.car ∧ p.Like c.cdr d.cdr ∧ (¬ p.leftCode r → p.Free c.car ∧ p.Free c.cdr)

/-- The two vectors have elements that correspond, and these are data if
vectors may be opened. -/
def VectorLaw (p : Correspondence opened F) (r q : Ref) : Prop :=
  ∃ items items', p.left.vectors[r]? = some items ∧ p.right.vectors[q]? = some items' ∧
    List.Forall₂ p.Like items items' ∧ (opened = true → List.Forall₂ p.LikeData items items')

/-- The two closures have parameters that correspond. -/
def FormalsLaw (p : Correspondence opened F) (r q : Ref) : Prop :=
  ∃ k k', p.left.closures[r]? = some k ∧ p.right.closures[q]? = some k' ∧
    p.Like k.formals k'.formals

/-- What corresponds is alike, and every object corresponds to one other at
most. -/
structure Lawful (p : Correspondence opened F) : Prop where
  cell : ∀ r q, p.cells r q → p.CellLaw r q
  code : ∀ r q, p.cells r q → (p.leftCode r ↔ p.rightCode q)
  leftCode : ∀ r, p.leftCode r → r < p.left.cells.size
  rightCode : ∀ r, p.rightCode r → r < p.right.cells.size
  vector : ∀ r q, p.vectors r q → p.VectorLaw r q
  formals : ∀ r q, p.closures r q → p.FormalsLaw r q
  cells_unique : Relator.BiUnique p.cells
  vectors_unique : Relator.BiUnique p.vectors
  closures_unique : Relator.BiUnique p.closures
  primitives : p.right.primitives = p.left.primitives
  strings : p.right.strings = p.left.strings

end Correspondence

end MiniScheme
