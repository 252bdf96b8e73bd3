import MiniScheme.Proofs.CorrespondingTexts
import MiniScheme.Proofs.References

/-!
# `MiniScheme.Proofs.CorrespondenceUpdates`: stores that correspond change alike

When both stores get an object, the two new ones correspond; when a pair is
changed on one side, the one that corresponds to it is changed on the other.
This file has one lemma for each operation on pairs, vectors and strings: the
laws still hold, of a correspondence that is wider.

All of them come from `Correspondence.Lawful.next`, which asks of a change only
what is new: objects that correspond did so before and are as they were, or have
to be shown to be alike (`Renews`).
-/

set_option autoImplicit false

namespace MiniScheme

/-! ### Relations between places -/

/-- The relation, and two more places that are related. -/
def Joined (R : Ref → Ref → Prop) (a b : Ref) : Ref → Ref → Prop := fun r q =>
  R r q ∨ (r = a ∧ q = b)

/-- Places that are related were so before, and have the same contents, or the
law holds of them. -/
def Renews {α : Type} (R R' : Ref → Ref → Prop) (xs xs' ys ys' : Array α)
    (law : Ref → Ref → Prop) : Prop :=
  ∀ r q, R' r q → (R r q ∧ xs'[r]? = xs[r]? ∧ ys'[q]? = ys[q]?) ∨ law r q

section Renews

variable {α : Type} {R : Ref → Ref → Prop} {xs ys : Array α} {law : Ref → Ref → Prop}

theorem Renews.refl (R : Ref → Ref → Prop) (xs ys : Array α) (law : Ref → Ref → Prop) :
    Renews R R xs xs ys ys law :=
  fun _ _ h => .inl ⟨h, rfl, rfl⟩

theorem renews_joined (hR : ∀ r q, R r q → r < xs.size ∧ q < ys.size) (x y : α)
    (hlaw : law xs.size ys.size) :
    Renews R (Joined R xs.size ys.size) xs (xs.push x) ys (ys.push y) law := by
  rintro r q (hold | ⟨rfl, rfl⟩)
  · obtain ⟨hr, hq⟩ := hR r q hold
    exact .inl ⟨hold, Store.getElem?_push_of_ne _ (Nat.ne_of_lt hr),
      Store.getElem?_push_of_ne _ (Nat.ne_of_lt hq)⟩
  · exact .inr hlaw

/-- Nothing is related to a place that is new. -/
theorem renews_left (hR : ∀ r q, R r q → r < xs.size ∧ q < ys.size) (x : α) :
    Renews R R xs (xs.push x) ys ys law :=
  fun r q h => .inl ⟨h, Store.getElem?_push_of_ne _ (Nat.ne_of_lt (hR r q h).1), rfl⟩

theorem renews_right (hR : ∀ r q, R r q → r < xs.size ∧ q < ys.size) (y : α) :
    Renews R R xs xs ys (ys.push y) law :=
  fun r q h => .inl ⟨h, rfl, Store.getElem?_push_of_ne _ (Nat.ne_of_lt (hR r q h).2)⟩

/-- Two new places are related to no others. -/
theorem biUnique_joined (hR : ∀ r q, R r q → r < xs.size ∧ q < ys.size)
    (h : Relator.BiUnique R) : Relator.BiUnique (Joined R xs.size ys.size) := by
  constructor
  · rintro r r' q (hr | ⟨rfl, rfl⟩) (hr' | ⟨rfl, hq⟩)
    · exact h.1 hr hr'
    · exact absurd hq (Nat.ne_of_lt (hR _ _ hr).2)
    · exact absurd (hR _ _ hr').2 (Nat.lt_irrefl _)
    · rfl
  · rintro r q q' (hq | ⟨rfl, rfl⟩) (hq' | ⟨hr, rfl⟩)
    · exact h.2 hq hq'
    · exact absurd hr (Nat.ne_of_lt (hR _ _ hq).1)
    · exact absurd (hR _ _ hq').1 (Nat.lt_irrefl _)
    · rfl

end Renews

namespace Correspondence

variable {opened : Bool} {F : Type} {p p' : Correspondence opened F} {r q : Ref}

/-! ### What stays -/

theorem Lawful.cells_lt (hp : p.Lawful) (r q : Ref) (h : p.cells r q) :
    r < p.left.cells.size ∧ q < p.right.cells.size := by
  obtain ⟨c, d, hc, hd, -⟩ := hp.cell r q h
  exact ⟨(Array.getElem?_eq_some_iff.mp hc).1, (Array.getElem?_eq_some_iff.mp hd).1⟩

theorem Lawful.vectors_lt (hp : p.Lawful) (r q : Ref) (h : p.vectors r q) :
    r < p.left.vectors.size ∧ q < p.right.vectors.size := by
  obtain ⟨items, items', hitems, hitems', -⟩ := hp.vector r q h
  exact ⟨(Array.getElem?_eq_some_iff.mp hitems).1, (Array.getElem?_eq_some_iff.mp hitems').1⟩

theorem Lawful.closures_lt (hp : p.Lawful) (r q : Ref) (h : p.closures r q) :
    r < p.left.closures.size ∧ q < p.right.closures.size := by
  obtain ⟨k, k', hk, hk', -⟩ := hp.formals r q h
  exact ⟨(Array.getElem?_eq_some_iff.mp hk).1, (Array.getElem?_eq_some_iff.mp hk').1⟩

theorem CellLaw.mono (hle : p.Grows p') (h : p.CellLaw r q)
    (hleft : p'.left.cells[r]? = p.left.cells[r]?)
    (hright : p'.right.cells[q]? = p.right.cells[q]?) : p'.CellLaw r q := by
  obtain ⟨c, d, hc, hd, hcar, hcdr, hfree⟩ := h
  refine ⟨c, d, hleft.trans hc, hright.trans hd, hcar.mono hle, hcdr.mono hle, fun hdata => ?_⟩
  obtain ⟨hfreecar, hfreecdr⟩ := hfree fun hcode => hdata (hle.leftCode r hcode).1
  exact ⟨hfreecar.mono hle, hfreecdr.mono hle⟩

theorem VectorLaw.mono (hle : p.Grows p') (h : p.VectorLaw r q)
    (hleft : p'.left.vectors[r]? = p.left.vectors[r]?)
    (hright : p'.right.vectors[q]? = p.right.vectors[q]?) : p'.VectorLaw r q := by
  obtain ⟨items, items', hitems, hitems', hlike, hdata⟩ := h
  exact ⟨items, items', hleft.trans hitems, hright.trans hitems',
    hlike.imp fun _ _ => Like.mono hle,
    fun hopened => (hdata hopened).imp fun _ _ => LikeData.mono hle⟩

theorem FormalsLaw.mono (hle : p.Grows p') (h : p.FormalsLaw r q)
    (hleft : p'.left.closures[r]? = p.left.closures[r]?)
    (hright : p'.right.closures[q]? = p.right.closures[q]?) : p'.FormalsLaw r q := by
  obtain ⟨k, k', hk, hk', hformals⟩ := h
  exact ⟨k, k', hleft.trans hk, hright.trans hk', hformals.mono hle⟩

/-- Pairs that were there are code exactly if they were. -/
theorem Lawful.code_mono (hp : p.Lawful) (hle : p.Grows p') (h : p.cells r q) :
    p'.leftCode r ↔ p'.rightCode q := by
  obtain ⟨hr, hq⟩ := hp.cells_lt r q h
  constructor
  · intro hcode
    exact (hle.rightCode q ((hp.code r q h).mp (hle.leftOld r hr hcode))).1
  · intro hcode
    exact (hle.leftCode r ((hp.code r q h).mpr (hle.rightOld q hq hcode))).1

/-- The laws hold after a change, if they hold of what is new. -/
theorem Lawful.next (hp : p.Lawful) (hle : p.Grows p')
    (cell : Renews p.cells p'.cells p.left.cells p'.left.cells p.right.cells p'.right.cells
      fun r q => p'.CellLaw r q ∧ (p'.leftCode r ↔ p'.rightCode q))
    (leftCode : ∀ r, p'.leftCode r → r < p'.left.cells.size)
    (rightCode : ∀ r, p'.rightCode r → r < p'.right.cells.size)
    (vector : Renews p.vectors p'.vectors p.left.vectors p'.left.vectors p.right.vectors
      p'.right.vectors p'.VectorLaw)
    (formals : Renews p.closures p'.closures p.left.closures p'.left.closures p.right.closures
      p'.right.closures p'.FormalsLaw)
    (cells_unique : Relator.BiUnique p'.cells) (vectors_unique : Relator.BiUnique p'.vectors)
    (closures_unique : Relator.BiUnique p'.closures)
    (primitives : p'.right.primitives = p'.left.primitives)
    (strings : p'.right.strings = p'.left.strings) : p'.Lawful where
  cell r q h := by
    rcases cell r q h with ⟨hold, hleft, hright⟩ | hlaw
    · exact (hp.cell r q hold).mono hle hleft hright
    · exact hlaw.1
  code r q h := by
    rcases cell r q h with ⟨hold, -⟩ | hlaw
    · exact hp.code_mono hle hold
    · exact hlaw.2
  leftCode := leftCode
  rightCode := rightCode
  vector r q h := by
    rcases vector r q h with ⟨hold, hleft, hright⟩ | hlaw
    · exact (hp.vector r q hold).mono hle hleft hright
    · exact hlaw
  formals r q h := by
    rcases formals r q h with ⟨hold, hleft, hright⟩ | hlaw
    · exact (hp.formals r q hold).mono hle hleft hright
    · exact hlaw
  cells_unique := cells_unique
  vectors_unique := vectors_unique
  closures_unique := closures_unique
  primitives := primitives
  strings := strings

/-- The same objects in stores with other frames. -/
def withFrames (p : Correspondence opened F) (frames frames' : Array Frame) :
    Correspondence opened F :=
  { p with
    left := { p.left with frames := frames }
    right := { p.right with frames := frames' } }

/-- The laws do not speak of frames. -/
theorem Lawful.withFrames (hp : p.Lawful) (frames frames' : Array Frame) :
    (p.withFrames frames frames').Lawful :=
  have hle : p.Grows (p.withFrames frames frames') := { Grows.refl p with }
  hp.next hle (.refl _ _ _ _) hp.leftCode hp.rightCode (.refl _ _ _ _) (.refl _ _ _ _)
    hp.cells_unique hp.vectors_unique hp.closures_unique hp.primitives hp.strings

/-! ### Pairs -/

/-- A new pair on both sides, which correspond. The mark says whether they are
code. -/
def cons (p : Correspondence opened F) (code : Prop) (c d : Cell) : Correspondence opened F :=
  { p with
    left := { p.left with cells := p.left.cells.push c }
    right := { p.right with cells := p.right.cells.push d }
    cells := Joined p.cells p.left.cells.size p.right.cells.size
    leftCode := fun r => p.leftCode r ∨ (code ∧ r = p.left.cells.size)
    rightCode := fun r => p.rightCode r ∨ (code ∧ r = p.right.cells.size) }

theorem Lawful.widens_cons (hp : p.Lawful) (code : Prop) (c d : Cell) : p ≤ p.cons code c d :=
  { le_refl p with
    cells := fun _ _ => .inl
    leftSize := Nat.le_of_lt (Store.size_lt_size_push _ _)
    leftCode := fun r hr =>
      ⟨.inl hr, Store.getElem?_push_of_ne _ (Nat.ne_of_lt (hp.leftCode r hr))⟩
    leftOld := fun _ hr hcode => hcode.resolve_right fun h => Nat.ne_of_lt hr h.2
    rightSize := Nat.le_of_lt (Store.size_lt_size_push _ _)
    rightCode := fun r hr =>
      ⟨.inl hr, Store.getElem?_push_of_ne _ (Nat.ne_of_lt (hp.rightCode r hr))⟩
    rightOld := fun _ hr hcode => hcode.resolve_right fun h => Nat.ne_of_lt hr h.2 }

/-- New pairs have fields that correspond. Those of data are data. -/
theorem Lawful.cons (hp : p.Lawful) {code : Prop} {c d : Cell} (hcar : p.Like c.car d.car)
    (hcdr : p.Like c.cdr d.cdr) (hfree : ¬ code → p.Free c.car ∧ p.Free c.cdr) :
    (p.cons code c d).Lawful := by
  have hle := (hp.widens_cons code c d).toGrows
  have hnotLeft : ¬ p.leftCode p.left.cells.size := fun h => Nat.lt_irrefl _ (hp.leftCode _ h)
  have hnotRight : ¬ p.rightCode p.right.cells.size := fun h => Nat.lt_irrefl _ (hp.rightCode _ h)
  refine hp.next hle (renews_joined hp.cells_lt c d ⟨?_, ?_⟩) (fun r hr => ?_) (fun r hr => ?_)
    (.refl _ _ _ _) (.refl _ _ _ _) (biUnique_joined hp.cells_lt hp.cells_unique)
    hp.vectors_unique hp.closures_unique hp.primitives hp.strings
  · refine ⟨c, d, Array.getElem?_push_size, Array.getElem?_push_size, hcar.mono hle,
      hcdr.mono hle, fun hdata => ?_⟩
    obtain ⟨hfreecar, hfreecdr⟩ := hfree fun hcode => hdata (.inr ⟨hcode, rfl⟩)
    exact ⟨hfreecar.mono hle, hfreecdr.mono hle⟩
  · simp [Correspondence.cons, hnotLeft, hnotRight]
  · rcases hr with hr | ⟨-, rfl⟩
    · exact Store.lt_size_push _ (hp.leftCode r hr)
    · exact Store.size_lt_size_push _ _
  · rcases hr with hr | ⟨-, rfl⟩
    · exact Store.lt_size_push _ (hp.rightCode r hr)
    · exact Store.size_lt_size_push _ _

/-- A new pair of code on the left, which corresponds to none. -/
def consLeft (p : Correspondence opened F) (c : Cell) : Correspondence opened F :=
  { p with
    left := { p.left with cells := p.left.cells.push c }
    leftCode := fun r => p.leftCode r ∨ r = p.left.cells.size }

theorem Lawful.widens_consLeft (hp : p.Lawful) (c : Cell) : p ≤ p.consLeft c :=
  { le_refl p with
    leftSize := Nat.le_of_lt (Store.size_lt_size_push _ _)
    leftCode := fun r hr =>
      ⟨.inl hr, Store.getElem?_push_of_ne _ (Nat.ne_of_lt (hp.leftCode r hr))⟩
    leftOld := fun _ hr hcode => hcode.resolve_right (Nat.ne_of_lt hr) }

theorem Lawful.consLeft (hp : p.Lawful) (c : Cell) : (p.consLeft c).Lawful := by
  refine hp.next (hp.widens_consLeft c).toGrows (renews_left hp.cells_lt c) (fun r hr => ?_)
    hp.rightCode (.refl _ _ _ _) (.refl _ _ _ _) hp.cells_unique hp.vectors_unique hp.closures_unique
    hp.primitives hp.strings
  rcases hr with hr | rfl
  · exact Store.lt_size_push _ (hp.leftCode r hr)
  · exact Store.size_lt_size_push _ _

/-- A new pair of code on the right, which corresponds to none. -/
def consRight (p : Correspondence opened F) (d : Cell) : Correspondence opened F :=
  { p with
    right := { p.right with cells := p.right.cells.push d }
    rightCode := fun r => p.rightCode r ∨ r = p.right.cells.size }

theorem Lawful.widens_consRight (hp : p.Lawful) (d : Cell) : p ≤ p.consRight d :=
  { le_refl p with
    rightSize := Nat.le_of_lt (Store.size_lt_size_push _ _)
    rightCode := fun r hr =>
      ⟨.inl hr, Store.getElem?_push_of_ne _ (Nat.ne_of_lt (hp.rightCode r hr))⟩
    rightOld := fun _ hr hcode => hcode.resolve_right (Nat.ne_of_lt hr) }

theorem Lawful.consRight (hp : p.Lawful) (d : Cell) : (p.consRight d).Lawful := by
  refine hp.next (hp.widens_consRight d).toGrows (renews_right hp.cells_lt d) hp.leftCode
    (fun r hr => ?_) (.refl _ _ _ _) (.refl _ _ _ _) hp.cells_unique hp.vectors_unique hp.closures_unique
    hp.primitives hp.strings
  rcases hr with hr | rfl
  · exact Store.lt_size_push _ (hp.rightCode r hr)
  · exact Store.size_lt_size_push _ _

/-- New pairs of data correspond. -/
theorem Lawful.likeData_cons (hp : p.Lawful) {a a' d d' : Value} (ha : p.LikeData a a')
    (hd : p.LikeData d d') :
    (p.cons False ⟨a, d⟩ ⟨a', d'⟩).Lawful ∧ (p.cons False ⟨a, d⟩ ⟨a', d'⟩).LikeData
      (.pair p.left.cells.size) (.pair p.right.cells.size) := by
  refine ⟨hp.cons ha.like hd.like fun _ => ⟨ha.free, hd.free⟩, .pair (.inr ⟨rfl, rfl⟩), ?_⟩
  rintro r ⟨⟩
  refine ⟨Store.size_lt_size_push _ _, fun hcode => ?_⟩
  exact Nat.lt_irrefl _ (hp.leftCode _ (hcode.resolve_right fun h => h.1))

/-- New lists of data correspond. -/
theorem Lawful.consAll {items items' : List Value} :
    ∀ {p : Correspondence opened F} {tail tail' : Value}, p.Lawful →
      List.Forall₂ p.LikeData items items' → p.LikeData tail tail' → ∃ p', p ≤ p' ∧ p'.Lawful ∧
        (p.left.consAll items tail).2 = p'.left ∧ (p.right.consAll items' tail').2 = p'.right ∧
        p'.LikeData (p.left.consAll items tail).1 (p.right.consAll items' tail').1 := by
  induction items generalizing items' with
  | nil =>
      intro p tail tail' hp hitems htail
      cases hitems
      exact ⟨p, le_refl p, hp, rfl, rfl, htail⟩
  | cons a items ih =>
      intro p tail tail' hp hitems htail
      cases hitems with
      | @cons _ a' _ items' ha hitems =>
          have hle := hp.widens_cons False ⟨a, tail⟩ ⟨a', tail'⟩
          obtain ⟨hlawful, hpair⟩ := hp.likeData_cons ha htail
          obtain ⟨p', hle', h⟩ :=
            ih hlawful (hitems.imp fun _ _ => LikeData.mono hle.toGrows) hpair
          exact ⟨p', hle.trans hle', h⟩

/-- The fields of two pairs are replaced. -/
def modify (p : Correspondence opened F) (r q : Ref) (f g : Cell → Cell) :
    Correspondence opened F :=
  { p with
    left := { p.left with cells := p.left.cells.modify r f }
    right := { p.right with cells := p.right.cells.modify q g } }

/-- Data that correspond get other fields, which are data and correspond. -/
theorem Lawful.modify (hp : p.Lawful) (twin : p.cells r q) (hdata : ¬ p.leftCode r)
    {f g : Cell → Cell} (h : ∀ c d, p.LikeData c.car d.car → p.LikeData c.cdr d.cdr →
      p.LikeData (f c).car (g d).car ∧ p.LikeData (f c).cdr (g d).cdr) :
    p ≤ p.modify r q f g ∧ (p.modify r q f g).Lawful := by
  have hdata' : ¬ p.rightCode q := fun hcode => hdata ((hp.code r q twin).mpr hcode)
  have hle : p ≤ p.modify r q f g :=
    { le_refl p with
      leftSize := by simp [Correspondence.modify]
      leftCode := fun r' hr' => by
        have hne : r ≠ r' := fun heq => hdata (heq ▸ hr')
        exact ⟨hr', by simp [Correspondence.modify, Array.getElem?_modify, hne]⟩
      rightSize := by simp [Correspondence.modify]
      rightCode := fun q' hq' => by
        have hne : q ≠ q' := fun heq => hdata' (heq ▸ hq')
        exact ⟨hq', by simp [Correspondence.modify, Array.getElem?_modify, hne]⟩ }
  refine ⟨hle, hp.next hle.toGrows (fun r' q' h' => ?_) (fun r' hr' => ?_) (fun q' hq' => ?_)
    (.refl _ _ _ _) (.refl _ _ _ _) hp.cells_unique hp.vectors_unique hp.closures_unique
    hp.primitives hp.strings⟩
  · -- Of two pairs that correspond, both are the changed ones or neither is.
    have hsame : r = r' ↔ q = q' := Relator.rel_eq hp.cells_unique twin h'
    by_cases hr : r = r'
    · obtain rfl := hr
      obtain rfl := hsame.mp rfl
      obtain ⟨c, d, hc, hd, hcar, hcdr, hfree⟩ := hp.cell r q twin
      obtain ⟨hfreecar, hfreecdr⟩ := hfree hdata
      obtain ⟨hcar', hcdr'⟩ := h c d ⟨hcar, hfreecar⟩ ⟨hcdr, hfreecdr⟩
      refine .inr ⟨⟨f c, g d, ?_, ?_, hcar'.like.mono hle.toGrows, hcdr'.like.mono hle.toGrows,
        fun _ => ⟨hcar'.free.mono hle.toGrows, hcdr'.free.mono hle.toGrows⟩⟩, hp.code r q twin⟩
      · simp [Correspondence.modify, Array.getElem?_modify, hc]
      · simp [Correspondence.modify, Array.getElem?_modify, hd]
    · have hq : q ≠ q' := fun heq => hr (hsame.mpr heq)
      exact .inl ⟨h', by simp [Correspondence.modify, Array.getElem?_modify, hr],
        by simp [Correspondence.modify, Array.getElem?_modify, hq]⟩
  · simpa [Correspondence.modify] using hp.leftCode r' hr'
  · simpa [Correspondence.modify] using hp.rightCode q' hq'

/-! ### Vectors and strings -/

/-- A new vector on both sides. -/
def newVector (p : Correspondence opened F) (items items' : List Value) :
    Correspondence opened F :=
  { p with
    left := (p.left.newVector items).2
    right := (p.right.newVector items').2
    vectors := Joined p.vectors p.left.vectors.size p.right.vectors.size }

theorem widens_newVector (p : Correspondence opened F) (items items' : List Value) :
    p ≤ p.newVector items items' :=
  { le_refl p with vectors := fun _ _ => .inl }

theorem Lawful.newVector (hp : p.Lawful) {items items' : List Value}
    (hitems : List.Forall₂ p.LikeData items items') : (p.newVector items items').Lawful := by
  have hle := (p.widens_newVector items items').toGrows
  have hdata := hitems.imp fun _ _ => LikeData.mono hle
  exact hp.next hle (.refl _ _ _ _) hp.leftCode hp.rightCode
    (renews_joined hp.vectors_lt items items' ⟨items, items', Array.getElem?_push_size,
      Array.getElem?_push_size, hdata.imp fun _ _ => LikeData.like, fun _ => hdata⟩)
    (.refl _ _ _ _) hp.cells_unique (biUnique_joined hp.vectors_lt hp.vectors_unique)
    hp.closures_unique hp.primitives hp.strings

/-- A new string on both sides. -/
def newString (p : Correspondence opened F) : Correspondence opened F :=
  { p with
    left := { p.left with strings := p.left.strings + 1 }
    right := { p.right with strings := p.right.strings + 1 } }

theorem widens_newString (p : Correspondence opened F) : p ≤ p.newString := { le_refl p with }

theorem Lawful.newString (hp : p.Lawful) : p.newString.Lawful :=
  hp.next p.widens_newString.toGrows (.refl _ _ _ _) hp.leftCode hp.rightCode (.refl _ _ _ _)
    (.refl _ _ _ _) hp.cells_unique hp.vectors_unique hp.closures_unique hp.primitives
    (congrArg (· + 1) hp.strings)

end Correspondence

end MiniScheme
