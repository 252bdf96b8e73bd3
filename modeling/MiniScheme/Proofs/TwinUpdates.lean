import MiniScheme.Proofs.Twins

/-!
# `MiniScheme.Proofs.TwinUpdates`: stores that correspond change alike

A step on data leaves a wider correspondence of data, and frames and closures as
they were (`Twins.Lawful.widen`). When both stores get a closure or a frame, the
two new ones correspond; when a name gets another value on one side, it does so
on the other. The laws still hold, of a correspondence that has grown.

All of them come from `Twins.Lawful.next`, which asks of a change only what is
new.
-/

set_option autoImplicit false

namespace MiniScheme

namespace Twins

variable {σ : Secret} {F : Type} {p p' : Twins σ F} {r q : Ref}

/-! ### What stays -/

theorem Lawful.frames_lt [HostFunctions F] (hp : p.Lawful) (b : Bool) (r q : Ref)
    (h : p.frames b r q) : r < p.left.frames.size ∧ q < p.right.frames.size := by
  obtain ⟨f, f', hf, hf', -⟩ := hp.frame b r q h
  exact ⟨(Array.getElem?_eq_some_iff.mp hf).1, (Array.getElem?_eq_some_iff.mp hf').1⟩

/-- Closures that correspond have parameters that do. -/
theorem ClosureLaw.formals (h : p.ClosureLaw r q) : p.FormalsLaw r q := by
  obtain ⟨k, k', hk, hk', -, hformals, -, -⟩ := h
  exact ⟨k, k', hk, hk', hformals⟩

/-- The laws hold after a change, if those of data do, and if they hold of what
is new. -/
theorem Lawful.next [HostFunctions F] (hp : p.Lawful) (hle : p ≤ p')
    (base : Correspondence.Lawful p'.toCorrespondence)
    (closure : Renews p.closures p'.closures p.left.closures p'.left.closures p.right.closures
      p'.right.closures p'.ClosureLaw)
    (frame : ∀ b, Renews (p.frames b) (p'.frames b) p.left.frames p'.left.frames p.right.frames
      p'.right.frames fun r q => p'.FrameLaw b r q ∧ (b = true → p.frames true r q))
    (hidden : ∀ r, p'.hidden r → p'.HiddenLaw r ∧ ∀ b q, ¬ p'.frames b r q)
    (frames_unique : Relator.BiUnique fun r q => ∃ b, p'.frames b r q)
    (primitives : p'.left.primitives = p.left.primitives) : p'.Lawful where
  toLawful := base
  closure r q h := by
    rcases closure r q h with ⟨hold, hleft, hright⟩ | hlaw
    · obtain ⟨k, k', hk, hk', hlike⟩ := hp.closure r q hold
      exact ⟨k, k', hleft.trans hk, hright.trans hk', hlike.mono hle⟩
    · exact hlaw
  frame b r q h := by
    rcases frame b r q h with ⟨hold, hleft, hright⟩ | hlaw
    · obtain ⟨f, f', hf, hf', hlike⟩ := hp.frame b r q hold
      exact ⟨f, f', hleft.trans hf, hright.trans hf', hlike.mono hle⟩
    · exact hlaw.1
  blurred r q h := by
    rcases frame true r q h with ⟨hold, -⟩ | ⟨-, hold⟩
    · exact hp.blurred r q hold
    · exact hp.blurred r q (hold rfl)
  hidden := hidden
  secret v v' h := (hp.secret v v' h).mono hle.toGrows
  frames_unique := frames_unique
  hosts := primitives ▸ hp.hosts

/-- Hidden frames stay hidden, as long as they stay as they are. -/
theorem HiddenLaw.mono (h : p.HiddenLaw r) (hsame : p'.left.frames[r]? = p.left.frames[r]?) :
    p'.HiddenLaw r := by
  obtain ⟨o, v, v', hknown, hframe⟩ := h
  exact ⟨o, v, v', hknown, hsame.trans hframe⟩

/-! ### Data -/

/-- The same frames, with another correspondence of data. -/
def widen (p : Twins σ F) (c : Correspondence σ.values.isNone F) : Twins σ F :=
  { p with toCorrespondence := c }

section Widen

variable {c : Correspondence σ.values.isNone F}

theorem grows_widen (hle : p.toCorrespondence ≤ c) : p ≤ p.widen c :=
  { hle.toGrows with
    frames := fun _ _ _ h => h
    hidden := fun _ h => h
    leftFrames := .of_eq hle.leftFrames
    rightFrames := .of_eq hle.rightFrames }

/-- The laws hold after a step on data. -/
theorem Lawful.widen [HostFunctions F] (hp : p.Lawful) (hle : p.toCorrespondence ≤ c)
    (hc : c.Lawful) : (p.widen c).Lawful := by
  refine hp.next (grows_widen hle) hc ?_ (fun b => ?_) (fun r hr => ?_) hp.frames_unique
    hle.leftPrimitives
  · show Renews p.closures c.closures p.left.closures c.left.closures p.right.closures
      c.right.closures _
    rw [hle.sameClosures, hle.leftClosures, hle.rightClosures]
    exact .refl _ _ _ _
  · show Renews _ _ p.left.frames c.left.frames p.right.frames c.right.frames _
    rw [hle.leftFrames, hle.rightFrames]
    exact .refl _ _ _ _
  · obtain ⟨hlaw, halone⟩ := hp.hidden r hr
    exact ⟨hlaw.mono (congrArg (·[r]?) hle.leftFrames), halone⟩

end Widen

/-- A new pair of code on the left, which corresponds to none. -/
def consLeft (p : Twins σ F) (c : Cell) : Twins σ F := p.widen (p.toCorrespondence.consLeft c)

theorem Lawful.grows_consLeft [HostFunctions F] (hp : p.Lawful) (c : Cell) : p ≤ p.consLeft c :=
  grows_widen (hp.widens_consLeft c)

theorem Lawful.consLeft [HostFunctions F] (hp : p.Lawful) (c : Cell) : (p.consLeft c).Lawful :=
  hp.widen (hp.widens_consLeft c) (hp.toLawful.consLeft c)

/-- A new pair of code on the right, which corresponds to none. -/
def consRight (p : Twins σ F) (d : Cell) : Twins σ F := p.widen (p.toCorrespondence.consRight d)

theorem Lawful.grows_consRight [HostFunctions F] (hp : p.Lawful) (d : Cell) : p ≤ p.consRight d :=
  grows_widen (hp.widens_consRight d)

theorem Lawful.consRight [HostFunctions F] (hp : p.Lawful) (d : Cell) : (p.consRight d).Lawful :=
  hp.widen (hp.widens_consRight d) (hp.toLawful.consRight d)

/-! ### Closures -/

/-- A new closure on both sides. -/
def newClosure (p : Twins σ F) (k k' : Closure) : Twins σ F :=
  { p with
    left := (p.left.newClosure k).2
    right := (p.right.newClosure k').2
    closures := Joined p.closures p.left.closures.size p.right.closures.size }

theorem grows_newClosure (p : Twins σ F) (k k' : Closure) : p ≤ p.newClosure k k' :=
  { le_refl p with closures := fun _ _ => .inl }

theorem Lawful.newClosure [HostFunctions F] (hp : p.Lawful) {k k' : Closure}
    (hk : p.LikeClosure k k') : (p.newClosure k k').Lawful := by
  have hle := p.grows_newClosure k k'
  have hlaw : (p.newClosure k k').ClosureLaw p.left.closures.size p.right.closures.size :=
    ⟨k, k', Array.getElem?_push_size, Array.getElem?_push_size, hk.mono hle⟩
  have hunique : Relator.BiUnique (p.newClosure k k').closures :=
    biUnique_joined hp.closures_lt hp.closures_unique
  have hbase : Correspondence.Lawful (p.newClosure k k').toCorrespondence :=
    hp.toLawful.next hle.toGrows (.refl _ _ _ _) hp.leftCode hp.rightCode (.refl _ _ _ _)
      (renews_joined hp.closures_lt k k' hlaw.formals) hp.cells_unique hp.vectors_unique hunique
      hp.primitives hp.strings
  exact hp.next hle hbase (renews_joined hp.closures_lt k k' hlaw) (fun _ => .refl _ _ _ _)
    hp.hidden hp.frames_unique rfl

/-- A new closure on the left, which corresponds to none. -/
def closureLeft (p : Twins σ F) (k : Closure) : Twins σ F :=
  { p with left := (p.left.newClosure k).2 }

theorem grows_closureLeft (p : Twins σ F) (k : Closure) : p ≤ p.closureLeft k := { le_refl p with }

theorem Lawful.closureLeft [HostFunctions F] (hp : p.Lawful) (k : Closure) :
    (p.closureLeft k).Lawful := by
  have hle := p.grows_closureLeft k
  have hbase : Correspondence.Lawful (p.closureLeft k).toCorrespondence :=
    hp.toLawful.next hle.toGrows (.refl _ _ _ _) hp.leftCode hp.rightCode (.refl _ _ _ _)
      (renews_left hp.closures_lt k) hp.cells_unique hp.vectors_unique hp.closures_unique
      hp.primitives hp.strings
  exact hp.next hle hbase (renews_left hp.closures_lt k) (fun _ => .refl _ _ _ _) hp.hidden
    hp.frames_unique rfl

/-! ### Frames -/

/-- A new frame on both sides. -/
def newFrame (p : Twins σ F) (f f' : Frame) : Twins σ F :=
  { p with
    left := (p.left.newFrame f).2
    right := (p.right.newFrame f').2
    frames := fun b r q => p.frames b r q ∨
      (b = false ∧ r = p.left.frames.size ∧ q = p.right.frames.size) }

theorem grows_newFrame (p : Twins σ F) (f f' : Frame) : p ≤ p.newFrame f f' :=
  { le_refl p with
    frames := fun _ _ _ => .inl
    leftFrames := Store.framesKept_newFrame _ _
    rightFrames := Store.framesKept_newFrame _ _ }

theorem Lawful.hidden_lt [HostFunctions F] (hp : p.Lawful) (h : p.hidden r) :
    r < p.left.frames.size := by
  obtain ⟨⟨o, v, v', -, hframe⟩, -⟩ := hp.hidden r h
  exact (Array.getElem?_eq_some_iff.mp hframe).1

theorem Lawful.newFrame [HostFunctions F] (hp : p.Lawful) {f f' : Frame}
    (hf : p.LikeFrame false f f') : (p.newFrame f f').Lawful := by
  have hle := p.grows_newFrame f f'
  have hlt (r q : Ref) : (∃ b, p.frames b r q) → r < p.left.frames.size ∧ q < p.right.frames.size :=
    fun ⟨b, h⟩ => hp.frames_lt b r q h
  refine hp.next hle (hp.toLawful.withFrames _ _) (.refl _ _ _ _) (fun b r q h => ?_)
    (fun r hr => ?_) ?_ rfl
  · rcases h with hold | ⟨rfl, rfl, rfl⟩
    · obtain ⟨hr, hq⟩ := hp.frames_lt b r q hold
      exact .inl ⟨hold, Store.getElem?_push_of_ne _ (Nat.ne_of_lt hr),
        Store.getElem?_push_of_ne _ (Nat.ne_of_lt hq)⟩
    · exact .inr ⟨⟨f, f', Array.getElem?_push_size, Array.getElem?_push_size, hf.mono hle⟩,
        fun hb => absurd hb Bool.false_ne_true⟩
  · obtain ⟨hlaw, halone⟩ := hp.hidden r hr
    have hlow := hp.hidden_lt hr
    refine ⟨hlaw.mono (Store.getElem?_push_of_ne _ (Nat.ne_of_lt hlow)), fun b q h => ?_⟩
    rcases h with hold | ⟨-, rfl, -⟩
    · exact halone b q hold
    · exact Nat.lt_irrefl _ hlow
  · have hjoined : (fun r q => ∃ b, (p.newFrame f f').frames b r q)
        = Joined (fun r q => ∃ b, p.frames b r q) p.left.frames.size p.right.frames.size := by
      funext r q
      simp [Twins.newFrame, Joined, exists_or]
    rw [hjoined]
    exact biUnique_joined hlt hp.frames_unique

/-- A new frame on the left that holds the secret name. -/
def hide (p : Twins σ F) (v : Value) (o : Ref) : Twins σ F :=
  { p with
    left := (p.left.newFrame ⟨[(σ.name, v)], some o⟩).2
    hidden := fun r => p.hidden r ∨ r = p.left.frames.size }

theorem grows_hide (p : Twins σ F) (v : Value) (o : Ref) : p ≤ p.hide v o :=
  { le_refl p with
    hidden := fun _ => .inl
    leftFrames := Store.framesKept_newFrame _ _ }

theorem Lawful.hide [HostFunctions F] (hp : p.Lawful) {v v' : Value}
    (hknown : σ.values = some (v, v')) (o : Ref) : (p.hide v o).Lawful := by
  refine hp.next (p.grows_hide v o) (hp.toLawful.withFrames _ _) (.refl _ _ _ _)
    (fun b => renews_left (hp.frames_lt b) _) (fun r hr => ?_) hp.frames_unique rfl
  rcases hr with hr | rfl
  · obtain ⟨hlaw, halone⟩ := hp.hidden r hr
    exact ⟨hlaw.mono (Store.getElem?_push_of_ne _ (Nat.ne_of_lt (hp.hidden_lt hr))), halone⟩
  · exact ⟨⟨o, v, v', hknown, Array.getElem?_push_size⟩,
      fun b q h => Nat.lt_irrefl _ (hp.frames_lt b _ q h).1⟩

/-- The value of a name is replaced on both sides. -/
def bind (p : Twins σ F) (r q : Ref) (name : String) (v v' : Value) : Twins σ F :=
  { p with left := p.left.bind r name v, right := p.right.bind q name v' }

theorem value?_bind (f : Frame) (name other : String) (v : Value) :
    (f.bind name v).value? other = if other = name then some v else f.value? other := by
  by_cases h : other = name
  · rw [if_pos h, h]
    exact Frame.lookup_insert_self name v f.bindings
  · rw [if_neg h]
    exact Frame.lookup_insert_of_ne h v f.bindings

/-- Two frames that correspond get the same new value for a name. -/
theorem Lawful.bind [HostFunctions F] (hp : p.Lawful) {b : Bool} (twin : p.frames b r q)
    {name : String} {v v' : Value} (hv : p.LikeData v v') (hleft : p.left.FramesKept (p.left.bind r name v))
    (hright : p.right.FramesKept (p.right.bind q name v')) :
    p ≤ p.bind r q name v v' ∧ (p.bind r q name v v').Lawful := by
  have hle : p ≤ p.bind r q name v v' :=
    { le_refl p with leftFrames := hleft, rightFrames := hright }
  refine ⟨hle, hp.next hle (hp.toLawful.withFrames _ _) (.refl _ _ _ _) (fun b' r' q' h' => ?_)
    (fun r' hr' => ?_) hp.frames_unique rfl⟩
  · have hsame : r = r' ↔ q = q' := Relator.rel_eq hp.frames_unique ⟨b, twin⟩ ⟨b', h'⟩
    by_cases hr : r = r'
    · obtain rfl := hr
      obtain rfl := hsame.mp rfl
      obtain ⟨f, f', hf, hf', hlike⟩ := hp.frame b' r q h'
      refine .inr ⟨⟨f.bind name v, f'.bind name v', ?_, ?_, fun other hother => ?_⟩,
        fun hb => hb ▸ h'⟩
      · simp [Twins.bind, Store.bind, Array.getElem?_modify, hf]
      · simp [Twins.bind, Store.bind, Array.getElem?_modify, hf']
      · rw [value?_bind, value?_bind]
        by_cases hname : other = name
        · rw [if_pos hname, if_pos hname]
          exact .some (hv.mono hle.toGrows)
        · rw [if_neg hname, if_neg hname]
          exact (hlike.mono hle) other hother
    · have hq : q ≠ q' := fun heq => hr (hsame.mpr heq)
      exact .inl ⟨h', by simp [Twins.bind, Store.bind, Array.getElem?_modify, hr],
        by simp [Twins.bind, Store.bind, Array.getElem?_modify, hq]⟩
  · -- A hidden frame corresponds to none, so it is not the one that changes.
    obtain ⟨hlaw, halone⟩ := hp.hidden r' hr'
    have hne : r ≠ r' := fun heq => halone b q (heq ▸ twin)
    exact ⟨hlaw.mono (by simp [Twins.bind, Store.bind, Array.getElem?_modify, hne]), halone⟩

end Twins

end MiniScheme
