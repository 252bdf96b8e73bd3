import MiniScheme.Proofs.Confinement
import MiniScheme.Proofs.Soundness

/-!
# `MiniScheme.Proofs.Footprint`: what a run can touch

The *footprint* of a run is what it can reach at its start, and what is not
there yet. It is closed: no step makes an object of the footprint refer to
something outside, because all a step has to store are values and
environments from inside. So all references that a run adds lead into the
footprint, and nothing outside is changed (`footprint_evaluate`).

Of two global frames that reach no pair and no frame in common, neither can
be changed by programs that run in the other.
-/

set_option autoImplicit false

namespace MiniScheme

/-- What a run from these roots may touch: what it can reach, and what is
not there yet. -/
def Store.Footprint (s : Store) (roots : List Object) (o : Object) : Prop :=
  s.Reachable roots o ∨ ¬ s.Has o

/-! ### Stores within a footprint -/

/-- A store that a run from the roots may have: the footprint is closed, all
else is as it was at the start, and only pairs and frames have changed. -/
structure FootprintWorld (start : Store) (roots : List Object) where
  store : Store
  closed : ∀ o, start.Footprint roots o → ∀ o' ∈ store.parts o, start.Footprint roots o'
  kept : ∀ o, ¬ start.Footprint roots o → start.Same store o
  fixed : ∀ o, start.Has o → ¬ o.IsMutable → start.Same store o
  has : ∀ o, start.Has o → store.Has o

instance (start : Store) (roots : List Object) : Preorder (FootprintWorld start roots) where
  le _ _ := True
  le_refl _ := trivial
  le_trans _ _ _ _ _ := trivial

namespace FootprintWorld

variable {start : Store} {roots : List Object}

/-- The store that a run starts with. -/
def initial (start : Store) (roots : List Object) : FootprintWorld start roots where
  store := start
  closed o ho o' ho' := by
    rcases ho with hreach | hfresh
    · exact .inl (hreach.part ho')
    · -- What is not there yet refers to nothing.
      rw [Store.parts_of_not_has hfresh] at ho'
      exact absurd ho' List.not_mem_nil
  kept o _ := .refl start o
  fixed o _ _ := .refl start o
  has _ h := h

/-- A new object belongs to the footprint. -/
theorem footprint_of_fresh (w : FootprintWorld start roots) {o : Object} (h : ¬ w.store.Has o) :
    start.Footprint roots o :=
  .inr fun hstart => h (w.has o hstart)

/-- One object of the footprint is made or changed, and refers to the
footprint afterwards. -/
def update (w : FootprintWorld start roots) {t : Store} {o : Object}
    (hchanges : w.store.Changes t o) (hkind : o.IsMutable ∨ ¬ w.store.Has o)
    (hmember : start.Footprint roots o) (hparts : ∀ o' ∈ t.parts o, start.Footprint roots o') :
    FootprintWorld start roots where
  store := t
  closed o₁ h₁ o₂ h₂ := by
    by_cases heq : o₁ = o
    · exact hparts o₂ (heq ▸ h₂)
    · exact w.closed o₁ h₁ o₂ ((hchanges.others o₁ heq).parts_eq ▸ h₂)
  kept o₁ h₁ := by
    have hne : o₁ ≠ o := fun heq => h₁ (heq ▸ hmember)
    exact (w.kept o₁ h₁).trans (hchanges.others o₁ hne)
  fixed o₁ h₁ hfixed := by
    -- The object is a pair or a frame, or else it is new.
    have hne : o₁ ≠ o := by
      rintro rfl
      exact hkind.elim hfixed fun hfresh => hfresh (w.has o₁ h₁)
    exact (w.fixed o₁ h₁ hfixed).trans (hchanges.others o₁ hne)
  has o₁ h₁ := hchanges.has o₁ (w.has o₁ h₁)

/-- A run stays inside its footprint. -/
def confinement (start : Store) (roots : List Object) :
    Confinement (FootprintWorld start roots) where
  store w := w.store
  Inside _ o := start.Footprint roots o
  inside_mono _ h := h
  closed {w _ _} ho ho' := w.closed _ ho _ ho'
  change {w _ _} hchanges hmutable ho hparts :=
    ⟨w.update hchanges (.inl hmutable) ho hparts, trivial, rfl⟩
  extend {w _ _} hadds hparts :=
    have ho := w.footprint_of_fresh hadds.fresh
    ⟨w.update hadds.toChanges (.inr hadds.fresh) ho hparts, trivial, rfl, ho⟩
  newString {w} text := by
    have hsame := w.store.same_newString text
    exact ⟨⟨(w.store.newString text).2,
      fun o ho o' ho' => w.closed o ho o' ((hsame o).parts_eq ▸ ho'),
      fun o ho => (w.kept o ho).trans (hsame o),
      fun o ho hfixed => (w.fixed o ho hfixed).trans (hsame o),
      fun o ho => Store.has_newString text (w.has o ho)⟩, trivial, rfl⟩

end FootprintWorld

/-- A new global frame reaches no pair and no frame that an older frame
reaches. -/
theorem makeGlobal_disjoint {m : Machine} (h : m.store.Sound) {g : Ref}
    (hg : m.store.Has (.frame g)) (primitives : List Primitive) (placeholders : List String)
    {o : Object} (hmutable : o.IsMutable)
    (hold : (outcome (makeGlobal primitives placeholders m)).store.Reachable [.frame g] o) :
    ¬ (outcome (makeGlobal primitives placeholders m)).store.Reachable
      [.frame m.store.frames.size] o := by
  obtain ⟨m', hrun, hadded⟩ := makeGlobal_run primitives placeholders m
  have hthere (o : Object) (ho : m.store.Reachable [.frame g] o) : m.store.Has o :=
    h.has_of_reachable (by simpa using hg) ho
  rw [hrun] at hold ⊢
  have hbefore : m.store.Reachable [.frame g] o :=
    (Store.reachable_iff_of_same fun o ho => hadded.same (hthere o ho)).mp hold
  intro hnew
  rcases hadded.reachable hnew with rfl | ⟨r, -, rfl⟩
  · exact Nat.lt_irrefl _ (hthere _ hbefore)
  · exact hmutable

/-! ### Runs -/

/-- From the first store to the second, what cannot be reached from the roots
has not changed, and all new references lead to what can be reached or was
not there. -/
structure Store.TouchedWithin (s t : Store) (roots : List Object) : Prop where
  unchanged : ∀ o, s.Has o → ¬ s.Reachable roots o → s.Same t o
  stored : ∀ o o', o' ∈ t.parts o → o' ∉ s.parts o → s.Footprint roots o'

namespace FootprintWorld

variable {start : Store} {roots : List Object}

theorem touchedWithin (w : FootprintWorld start roots) :
    start.TouchedWithin w.store roots := by
  refine ⟨fun o hhas hreach => w.kept o fun h => h.elim hreach (absurd hhas ·), ?_⟩
  intro o o' hmem hnew
  by_cases ho : start.Footprint roots o
  · exact w.closed o ho o' hmem
  · rw [(w.kept o ho).parts_eq] at hmem
    exact absurd hmem hnew

/-- What can be reached from the roots later on belongs to the footprint. -/
theorem footprint_of_reachable (w : FootprintWorld start roots) {o : Object}
    (h : w.store.Reachable roots o) : start.Footprint roots o := by
  induction h with
  | root mem => exact .inl (.root mem)
  | part _ mem ih => exact w.closed _ ih _ mem

end FootprintWorld

/-- Evaluation stays within the footprint of the expression and the
environment. -/
theorem touchedWithin_evaluate (depth : Nat) (env : Ref) (expr : Value) (m : Machine) :
    m.store.TouchedWithin (outcome (evaluate depth env expr m)).store
      (.frame env :: expr.object?.toList) ∧
    ∀ v m', evaluate depth env expr m = .ok v m' → ∀ o, v.object? = some o →
      m.store.Footprint (.frame env :: expr.object?.toList) o := by
  have hexpr (o : Object) (ho : expr.object? = some o) :
      m.store.Footprint (.frame env :: expr.object?.toList) o :=
    .inl (.root (List.mem_cons_of_mem _ (by simp [ho])))
  have hread : (FootprintWorld.confinement _ _).discipline.Reads
      (.initial m.store (.frame env :: expr.object?.toList)) [] := trivial
  obtain ⟨w, -, hstore, -, hvalue⟩ := Discipline.evaluate (m := m) rfl hread
    (.inl (.root List.mem_cons_self)) hexpr depth
  rw [← hstore]
  exact ⟨w.touchedWithin, hvalue⟩

/-- A program that runs in one frame leaves all that another one reaches as
it is, if the two reach no pair and no frame in common. -/
theorem run_disjoint (depth : Nat) {g h : Ref} (source : String) {m : Machine}
    (hthere : ∀ o, m.store.Reachable [.frame h] o → m.store.Has o)
    (hdisjoint : ∀ o, o.IsMutable → m.store.Reachable [.frame g] o →
      ¬ m.store.Reachable [.frame h] o) :
    (∀ o, m.store.Reachable [.frame h] o →
      m.store.Same (outcome (run depth g source m)).store o) ∧
    (∀ o, (outcome (run depth g source m)).store.Reachable [.frame h] o ↔
      m.store.Reachable [.frame h] o) ∧
    ∀ o, o.IsMutable → (outcome (run depth g source m)).store.Reachable [.frame g] o →
      ¬ (outcome (run depth g source m)).store.Reachable [.frame h] o := by
  have hread : (FootprintWorld.confinement _ _).discipline.Reads
      (.initial m.store [.frame g]) [] := trivial
  obtain ⟨w, -, hstore, -⟩ := Discipline.run (m := m) rfl hread
    (.inl (.root List.mem_cons_self)) depth source
  rw [← hstore]
  -- A pair or frame that the other one reaches is outside of the footprint.
  have houtside (o : Object) (hmutable : o.IsMutable) (ho : m.store.Reachable [.frame h] o) :
      ¬ m.store.Footprint [.frame g] o := fun hfootprint =>
    hfootprint.elim (fun hg => hdisjoint o hmutable hg ho) (absurd (hthere o ho) ·)
  -- They may have vectors, closures and primitives in common, which never change.
  have hsame (o : Object) (ho : m.store.Reachable [.frame h] o) : m.store.Same w.store o := by
    by_cases hmutable : o.IsMutable
    · exact w.kept o (houtside o hmutable ho)
    · exact w.fixed o (hthere o ho) hmutable
  refine ⟨hsame, fun o => Store.reachable_iff_of_same hsame, fun o hmutable hg hh => ?_⟩
  exact houtside o hmutable ((Store.reachable_iff_of_same hsame).mp hh)
    (w.footprint_of_reachable hg)

/-- **Evaluation touches only what it can reach.** Whether it gives a value or
fails, it changes nothing that it cannot reach from the expression and the
environment, and all that it stores or gives was in reach or is new. A
program that runs in one global frame changes nothing that another one
reaches, if the two reach no pair and no frame in common, and afterwards
they still reach none. What the other one reaches has to be there, which is
so in every sound store (`Sound.has_of_reachable`). -/
theorem footprint_evaluate :
    (∀ (depth : Nat) (env : Ref) (expr : Value) (m : Machine),
      m.store.TouchedWithin (outcome (evaluate depth env expr m)).store
        (.frame env :: expr.object?.toList) ∧
      ∀ v m', evaluate depth env expr m = .ok v m' → ∀ o, v.object? = some o →
        m.store.Footprint (.frame env :: expr.object?.toList) o) ∧
    (∀ (depth : Nat) (g h : Ref) (source : String) (m : Machine),
      (∀ o, m.store.Reachable [.frame h] o → m.store.Has o) →
      (∀ o, o.IsMutable → m.store.Reachable [.frame g] o → ¬ m.store.Reachable [.frame h] o) →
      (∀ o, m.store.Reachable [.frame h] o →
        m.store.Same (outcome (run depth g source m)).store o) ∧
      (∀ o, (outcome (run depth g source m)).store.Reachable [.frame h] o ↔
        m.store.Reachable [.frame h] o) ∧
      ∀ o, o.IsMutable → (outcome (run depth g source m)).store.Reachable [.frame g] o →
        ¬ (outcome (run depth g source m)).store.Reachable [.frame h] o) :=
  ⟨touchedWithin_evaluate, fun depth _ _ source _ hthere hdisjoint =>
    run_disjoint depth source hthere hdisjoint⟩

/-- A store with one global frame. -/
def oneGlobal : Machine := outcome (makeGlobal standardPrimitives ["it"] {})

/-- A store with two global frames. -/
def twoGlobals : Machine := outcome (makeGlobal standardPrimitives ["it"] oneGlobal)

theorem size_oneGlobal : oneGlobal.store.frames.size = 1 := by
  obtain ⟨m, hrun, hadded⟩ := makeGlobal_run standardPrimitives ["it"] {}
  obtain ⟨bindings, hframes, -⟩ := hadded.frames
  rw [oneGlobal, hrun]
  show m.store.frames.size = 1
  rw [hframes]
  rfl

theorem footprint_evaluate_twoGlobals :
    ((∀ o, twoGlobals.store.Reachable [.frame 1] o → twoGlobals.store.Has o) ∧
      ∀ o, o.IsMutable → twoGlobals.store.Reachable [.frame 0] o →
        ¬ twoGlobals.store.Reachable [.frame 1] o) ∧
    ∀ o, twoGlobals.store.Reachable [.frame 1] o →
      twoGlobals.store.Same (outcome (run 50 0 "(set! it (cons it car))" twoGlobals)).store o := by
  have hone : (1 : Ref) = oneGlobal.store.frames.size := size_oneGlobal.symm
  obtain ⟨hsound, hzero⟩ := sound_makeGlobal (m := {}) .empty standardPrimitives ["it"]
  have htwo := sound_makeGlobal (m := oneGlobal) hsound standardPrimitives ["it"]
  have hhas (o : Object) (ho : twoGlobals.store.Reachable [.frame 1] o) :
      twoGlobals.store.Has o := by
    rw [hone] at ho
    exact htwo.1.has_of_reachable (by simpa using htwo.2) ho
  have hdisjoint (o : Object) (hmutable : o.IsMutable)
      (hold : twoGlobals.store.Reachable [.frame 0] o) :
      ¬ twoGlobals.store.Reachable [.frame 1] o := by
    rw [hone]
    exact makeGlobal_disjoint (m := oneGlobal) hsound hzero standardPrimitives ["it"] hmutable hold
  exact ⟨⟨hhas, hdisjoint⟩,
    (footprint_evaluate.2 50 0 1 "(set! it (cons it car))" twoGlobals hhas hdisjoint).1⟩

end MiniScheme
