import MiniScheme.Proofs.Confinement
import MiniScheme.Proofs.GlobalFrame

/-!
# `MiniScheme.Proofs.Soundness`: every reference leads somewhere

Objects are referred to by number. A store is sound (`Store.Sound`) if every
reference in it is the number of an object that is there. An object that is
made later then has no references to it yet, wherever they come from.

The empty store is sound, a new global frame keeps it so
(`Sound.globalAdded`), and so does all that runs in an environment that is
there: `Sound.evaluate`, `Sound.apply` and `Sound.run`. The objects that can
be reached in a sound store are there, too (`Sound.has_of_reachable`).
-/

set_option autoImplicit false

namespace MiniScheme

/-- Every reference leads to an object that is there. -/
def Store.Sound (s : Store) : Prop := ∀ o, ∀ o' ∈ s.parts o, s.Has o'

/-- What the value refers to is there. -/
def Store.HasValue (s : Store) (v : Value) : Prop := ∀ o, v.object? = some o → s.Has o

/-- A sound store, which may grow. -/
structure SoundWorld where
  store : Store
  sound : store.Sound

instance : Preorder SoundWorld where
  le w w' := ∀ o, w.store.Has o → w'.store.Has o
  le_refl _ _ h := h
  le_trans _ _ _ h k o ho := k o (h o ho)

namespace SoundWorld

/-- One object is made or changed, and refers to objects that are there. -/
def update (w : SoundWorld) {t : Store} {o : Object} (hchanges : w.store.Changes t o)
    (hparts : ∀ o' ∈ t.parts o, w.store.Has o') : SoundWorld where
  store := t
  sound o₁ o₂ h₂ := by
    by_cases heq : o₁ = o
    · exact hchanges.has o₂ (hparts o₂ (heq ▸ h₂))
    · exact hchanges.has o₂ (w.sound o₁ o₂ ((hchanges.others o₁ heq).parts_eq ▸ h₂))

/-- A run stays among the objects that are there. -/
def confinement : Confinement SoundWorld where
  store w := w.store
  Inside w o := w.store.Has o
  inside_mono hle ho := hle _ ho
  closed {w _ _} _ ho' := w.sound _ _ ho'
  change {w _ _} hchanges _ _ hparts := ⟨w.update hchanges hparts, hchanges.has, rfl⟩
  extend {w _ _} hadds hparts := ⟨w.update hadds.toChanges hparts, hadds.has, rfl, hadds.made⟩
  newString {w} text := by
    have hsame := w.store.same_newString text
    exact ⟨⟨(w.store.newString text).2, fun o o' ho' =>
      Store.has_newString text (w.sound o o' ((hsame o).parts_eq ▸ ho'))⟩,
      fun _ => Store.has_newString text, rfl⟩

end SoundWorld

namespace Store.GlobalAdded

variable {s t : Store} {o o' : Object}

/-! ### Global frames -/

theorem has (h : s.GlobalAdded t) (ho : s.Has o) : t.Has o := by
  obtain ⟨bindings, hframes, -⟩ := h.frames
  cases o with
  | cell r => rwa [Has, h.cells]
  | vector r => rwa [Has, h.vectors]
  | closure r => rwa [Has, h.closures]
  | frame r => rw [Has, hframes]; exact lt_size_push _ ho
  | primitive r => exact Nat.lt_of_lt_of_le ho h.primitives.1

theorem has_frame (h : s.GlobalAdded t) : t.Has (.frame s.frames.size) := by
  obtain ⟨bindings, hframes, -⟩ := h.frames
  rw [Has, hframes]
  exact size_lt_size_push _ _

/-- A new global frame changes nothing that is there. -/
theorem same (h : s.GlobalAdded t) (ho : s.Has o) : s.Same t o := by
  obtain ⟨bindings, hframes, -⟩ := h.frames
  cases o with
  | cell r => exact congrArg (·[r]?) h.cells
  | vector r => exact congrArg (·[r]?) h.vectors
  | closure r => exact congrArg (·[r]?) h.closures
  | frame r =>
      show t.frames[r]? = s.frames[r]?
      rw [hframes, getElem?_push_of_ne _ (Nat.ne_of_lt ho)]
  | primitive r => exact h.primitives.2 r ho

/-- A new global frame refers to primitives only. -/
theorem mem_parts_frame (h : s.GlobalAdded t) (ho : o ∈ t.parts (.frame s.frames.size)) :
    ∃ r < t.primitives.size, o = .primitive r := by
  obtain ⟨bindings, hframes, hvalues⟩ := h.frames
  have hframe : t.frames[s.frames.size]? = some ⟨bindings, none⟩ := by
    rw [hframes, Array.getElem?_push_size]
  rcases (Store.mem_parts_frame hframe).mp ho with ⟨b, hb, hobject⟩ | ⟨q, hq, -⟩
  · rcases hvalues b hb with hvoid | ⟨r, hprimitive, -, hr⟩
    · rw [hvoid] at hobject
      cases hobject
    · rw [hprimitive] at hobject
      cases hobject
      exact ⟨r, hr, rfl⟩
  · cases hq

/-- All other references were there. -/
theorem mem_parts (h : s.GlobalAdded t) (ho' : o' ∈ t.parts o) :
    o' ∈ s.parts o ∨ o = .frame s.frames.size := by
  obtain ⟨bindings, hframes, -⟩ := h.frames
  cases o with
  | primitive r => exact absurd ho' List.not_mem_nil
  | frame r =>
      by_cases hr : r = s.frames.size
      · exact .inr (by rw [hr])
      · have hsame : s.Same t (.frame r) := by
          show t.frames[r]? = s.frames[r]?
          rw [hframes, getElem?_push_of_ne _ hr]
        exact .inl (hsame.parts_eq ▸ ho')
  | cell r => exact .inl (by rwa [parts, h.cells] at ho')
  | vector r => exact .inl (by rwa [parts, h.vectors] at ho')
  | closure r => exact .inl (by rwa [parts, h.closures] at ho')

/-- A new global frame reaches itself and its primitives. -/
theorem reachable (h : s.GlobalAdded t) (ho : t.Reachable [.frame s.frames.size] o) :
    o = .frame s.frames.size ∨ ∃ r < t.primitives.size, o = .primitive r := by
  induction ho with
  | root mem => exact .inl (List.mem_singleton.mp mem)
  | part _ mem ih =>
      rcases ih with rfl | ⟨r, -, rfl⟩
      · exact .inr (h.mem_parts_frame mem)
      · exact absurd mem List.not_mem_nil

end Store.GlobalAdded

namespace Store.Sound

variable {s t : Store} {m : Machine} {o : Object}

theorem has_of_reachable (h : s.Sound) {roots : List Object} (hroots : ∀ o ∈ roots, s.Has o)
    (ho : s.Reachable roots o) : s.Has o := by
  cases ho with
  | root mem => exact hroots o mem
  | part _ mem => exact h _ o mem

theorem empty : Sound {} := by
  intro o o' ho'
  rw [parts_of_not_has (by cases o <;> exact Nat.not_lt_zero _)] at ho'
  exact absurd ho' List.not_mem_nil

theorem globalAdded (h : s.Sound) (hst : s.GlobalAdded t) : t.Sound := by
  intro o o' ho'
  -- A reference was there before, or it is one of the new frame.
  rcases hst.mem_parts ho' with hold | rfl
  · exact hst.has (h o o' hold)
  · obtain ⟨r, hr, rfl⟩ := hst.mem_parts_frame ho'
    exact hr

/-! ### Runs -/

/-- From the first machine, a run ends with a sound store that has all the
objects of its start, and with a value that refers to objects that are
there. -/
structure Outcome (m : Machine) (result : EStateM.Result Fault Machine Value) : Prop where
  sound : (outcome result).store.Sound
  has : ∀ o, m.store.Has o → (outcome result).store.Has o
  value : ∀ v m', result = .ok v m' → m'.store.HasValue v

theorem Outcome.of_world {h : m.store.Sound} {result : EStateM.Result Fault Machine Value}
    {w : SoundWorld} (hle : ⟨m.store, h⟩ ≤ w) (hstore : w.store = (outcome result).store)
    (hvalue : ∀ v m', result = .ok v m' → w.store.HasValue v) : Outcome m result := by
  refine ⟨hstore ▸ w.sound, hstore ▸ hle, fun v m' hv => ?_⟩
  have hvalue' := hvalue v m' hv
  rwa [hstore, hv] at hvalue'

theorem evaluate (h : m.store.Sound) {env : Ref} (henv : m.store.Has (.frame env)) {expr : Value}
    (hexpr : m.store.HasValue expr) (depth : Nat) :
    Outcome m (MiniScheme.evaluate depth env expr m) := by
  have hread : SoundWorld.confinement.discipline.Reads ⟨m.store, h⟩ [] := trivial
  obtain ⟨w, hle, hstore, -, hvalue⟩ := Discipline.evaluate (m := m) rfl hread henv hexpr depth
  exact .of_world hle hstore hvalue

theorem apply (h : m.store.Sound) {fn : Value} {args : List Value} (hfn : m.store.HasValue fn)
    (hargs : ∀ v ∈ args, m.store.HasValue v) (depth : Nat) :
    Outcome m (MiniScheme.apply depth fn args m) := by
  have hread : SoundWorld.confinement.discipline.Reads ⟨m.store, h⟩ [] := trivial
  obtain ⟨w, hle, hstore, -, hvalue⟩ := Discipline.apply (m := m) rfl hread hfn hargs depth
  exact .of_world hle hstore hvalue

theorem run (h : m.store.Sound) {env : Ref} (henv : m.store.Has (.frame env)) (depth : Nat)
    (source : String) : Outcome m (MiniScheme.run depth env source m) := by
  have hread : SoundWorld.confinement.discipline.Reads ⟨m.store, h⟩ [] := trivial
  obtain ⟨w, hle, hstore, hvalue⟩ := Discipline.run (m := m) rfl hread henv depth source
  exact .of_world hle hstore hvalue

end Store.Sound

/-- Making a global frame keeps a store sound, and the frame is there. -/
theorem sound_makeGlobal {m : Machine} (h : m.store.Sound) (primitives : List Primitive)
    (placeholders : List String) :
    (outcome (makeGlobal primitives placeholders m)).store.Sound ∧
    (outcome (makeGlobal primitives placeholders m)).store.Has (.frame m.store.frames.size) := by
  obtain ⟨m', hrun, hadded⟩ := makeGlobal_run primitives placeholders m
  rw [hrun]
  exact ⟨h.globalAdded hadded, hadded.has_frame⟩

end MiniScheme
