import MiniScheme.Proofs.Actions

/-!
# `MiniScheme.Proofs.GlobalFrame`: what a new global frame adds

`makeGlobal` fills a new frame in two loops. `makeGlobal_run` says that it
always succeeds, and that the store afterwards has that frame more, and
primitives of its own for it, and is else as it was (`Store.GlobalAdded`).
`makeGlobal_spec` adds that the new primitives are those that were given.
-/

set_option autoImplicit false

namespace MiniScheme

/-- The second store is the first one with a global frame more. Its values
are placeholders and new primitives. -/
structure Store.GlobalAdded {F : Type} (s t : Store F) : Prop where
  cells : t.cells = s.cells
  vectors : t.vectors = s.vectors
  closures : t.closures = s.closures
  primitives : s.primitives.size ≤ t.primitives.size ∧
    ∀ r < s.primitives.size, t.primitives[r]? = s.primitives[r]?
  frames : ∃ bindings, t.frames = s.frames.push ⟨bindings, none⟩ ∧
    ∀ b ∈ bindings, b.2 = placeholder ∨
      ∃ r, b.2 = .primitive r ∧ s.primitives.size ≤ r ∧ r < t.primitives.size

namespace Store.GlobalAdded

variable {F : Type} {s t : Store F}

theorem modify_push {α : Type} (xs : Array α) (x : α) (f : α → α) :
    (xs.push x).modify xs.size f = xs.push (f x) := by
  refine Array.ext_getElem? fun i => ?_
  rw [Array.getElem?_modify, Array.getElem?_push, Array.getElem?_push]
  by_cases hi : i = xs.size
  · simp [hi]
  · simp [hi, Ne.symm hi]

theorem newPrimitive (h : GlobalAdded s t) (p : Primitive F) :
    GlobalAdded s (t.newPrimitive p).2 := by
  obtain ⟨hle, hprimitives⟩ := h.primitives
  obtain ⟨bindings, hframes, hvalues⟩ := h.frames
  have hsize : (t.newPrimitive p).2.primitives.size = t.primitives.size + 1 := Array.size_push _
  refine ⟨h.cells, h.vectors, h.closures, ⟨by omega, fun r hr => ?_⟩, bindings, hframes,
    fun b hb => ?_⟩
  · show (t.primitives.push p)[r]? = _
    rw [Array.getElem?_push, if_neg (by omega), hprimitives r hr]
  · refine (hvalues b hb).imp_right ?_
    rintro ⟨r, hr, hlow, hhigh⟩
    exact ⟨r, hr, hlow, hsize ▸ Nat.lt_succ_of_lt hhigh⟩

theorem bind (h : GlobalAdded s t) (name : String) {v : Value} (hv : v = placeholder ∨
      ∃ r, v = .primitive r ∧ s.primitives.size ≤ r ∧ r < t.primitives.size) :
    GlobalAdded s (t.bind s.frames.size name v) := by
  obtain ⟨bindings, hframes, hvalues⟩ := h.frames
  refine ⟨h.cells, h.vectors, h.closures, h.primitives, Frame.insert name v bindings, ?_,
    fun b hb => ?_⟩
  · unfold Store.bind
    rw [hframes, modify_push]
    rfl
  · rcases mem_insert hb with rfl | hb
    · exact hv
    · exact hvalues b hb

end Store.GlobalAdded

/-! ### The loops -/

/-- On machines of a kind the action gives this value and a machine of the
same kind. -/
def Yields {F α : Type} (P : Machine F → Prop) (x : EvalOn F α) (a : α) : Prop :=
  ∀ m, P m → ∃ m', x m = .ok a m' ∧ P m'

namespace Yields

variable {F α β : Type} {P : Machine F → Prop}

theorem bind {x : EvalOn F α} {f : α → EvalOn F β} {a : α} {b : β} (hx : Yields P x a)
    (hf : Yields P (f a) b) : Yields P (x >>= f) b := by
  intro m hm
  obtain ⟨m₁, hrun₁, hm₁⟩ := hx m hm
  rw [bind_run_ok hrun₁]
  exact hf m₁ hm₁

theorem forIn {body : α → PUnit → EvalOn F (ForInStep PUnit)} {items : List α}
    (hbody : ∀ a ∈ items, Yields P (body a ⟨⟩) (.yield ⟨⟩)) :
    Yields P (forIn items ⟨⟩ body) ⟨⟩ := by
  induction items with
  | nil => intro m hm; exact ⟨m, rfl, hm⟩
  | cons a items ih =>
      rw [List.forIn_cons]
      exact (hbody a List.mem_cons_self).bind
        (ih fun b hb => hbody b (List.mem_cons_of_mem a hb))

end Yields

/-- A global frame is made, and nothing else but the given primitives. -/
theorem makeGlobal_spec {F : Type} (primitives : List (Primitive F)) (placeholders : List String) (m : Machine F) :
    ∃ m', makeGlobal primitives placeholders m = .ok m.store.frames.size m' ∧
      m.store.GlobalAdded m'.store ∧
      ∀ p ∈ m'.store.primitives, p ∈ m.store.primitives ∨ p ∈ primitives := by
  have hempty : m.store.GlobalAdded (m.store.newFrame ⟨[], none⟩).2 :=
    ⟨rfl, rfl, rfl, ⟨Nat.le_refl _, fun _ _ => rfl⟩, [], rfl, by simp⟩
  -- Every turn of both loops keeps the store one that has a global frame more.
  have hfill : Yields (fun k => m.store.GlobalAdded k.store ∧
      ∀ p ∈ k.store.primitives, p ∈ m.store.primitives ∨ p ∈ primitives) (do
      for p in primitives do
        let v ← change fun s => s.newPrimitive p
        change fun s => ((), s.bind m.store.frames.size p.name v)
      for name in placeholders do
        change fun s => ((), s.bind m.store.frames.size name placeholder)
      note fun s =>
        .ok (.globalFrame ((s.frames[m.store.frames.size]?.map fun f => f.bindings.length).getD 0))
      return m.store.frames.size) m.store.frames.size := by
    refine .bind (.forIn fun p hp k hk => ?_)
      (.bind (.forIn fun name _ k hk => ?_) (.bind (a := ()) (fun k hk => ?_) ?_))
    · refine ⟨_, rfl, (hk.1.newPrimitive p).bind p.name (.inr ⟨_, rfl, hk.1.primitives.1, ?_⟩),
        fun q hq => ?_⟩
      · simp [Store.newPrimitive]
      · rcases Array.mem_push.mp hq with hq | rfl
        · exact hk.2 q hq
        · exact .inr hp
    · exact ⟨_, rfl, hk.1.bind name (.inl rfl), hk.2⟩
    · -- The event of a global frame always has a text.
      unfold note
      cases k.journal with
      | none => exact ⟨k, rfl, hk⟩
      | some events => exact ⟨_, rfl, hk⟩
    · exact fun k hk => ⟨k, rfl, hk⟩
  exact hfill ⟨_, m.journal⟩ ⟨hempty, fun p hp => .inl hp⟩

/-- A global frame is made, and nothing else but primitives. -/
theorem makeGlobal_run {F : Type} (primitives : List (Primitive F)) (placeholders : List String) (m : Machine F) :
    ∃ m', makeGlobal primitives placeholders m = .ok m.store.frames.size m' ∧
      m.store.GlobalAdded m'.store := by
  obtain ⟨m', hrun, hadded, -⟩ := makeGlobal_spec primitives placeholders m
  exact ⟨m', hrun, hadded⟩

end MiniScheme
