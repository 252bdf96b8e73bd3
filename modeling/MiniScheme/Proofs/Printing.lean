import MiniScheme.Environment
import MiniScheme.Proofs.Spine

/-!
# `MiniScheme.Proofs.Printing`: what the text of a value depends on

A text is printed with a limit on nesting and with a count of the pairs of
a list. This file says how little of that shows.

* Printing ends: the count of pairs never runs out, since a pair that is
  being written is active and is not walked again. The only faults are
  nesting that is too deep and integers with too many digits
  (`IsLimit`).
* A higher limit on nesting changes nothing but that fault.
* The text of a closure shows its parameters only, so two stores that differ
  in the bodies of closures (`Store.Alike`) print alike.

All three are one statement about two printers (`Settles`), and go through
the functions of the printer once: `settles_display`, `settles_inspect` and
`settles_showFrame`.
-/

set_option autoImplicit false

namespace MiniScheme

/-- A fault of printing: a limit that the text goes beyond. -/
inductive IsLimit : Fault → Prop
  | tooDeep : IsLimit .tooDeep
  | tooManyDigits : IsLimit .tooManyDigits

/-- What goes on after a result has had one. -/
theorem exists_of_bind_eq_ok {α β : Type} {x : Except Fault α} {f : α → Except Fault β} {b : β}
    (h : x >>= f = .ok b) : ∃ a, x = .ok a ∧ f a = .ok b := by
  cases x with
  | ok a => exact ⟨a, rfl, h⟩
  | error e => cases h

/-- The second result is the first one, unless that is nested too deeply. -/
def SettlesDepth {α : Type} (x y : Except Fault α) : Prop := x = .error .tooDeep ∨ y = x

theorem SettlesDepth.bind {α β : Type} {x y : Except Fault α} {f g : α → Except Fault β}
    (h : SettlesDepth x y) (hf : ∀ a, SettlesDepth (f a) (g a)) :
    SettlesDepth (x >>= f) (y >>= g) := by
  rcases h with rfl | rfl
  · exact .inl rfl
  · cases y with
    | ok a => exact hf a
    | error f => exact .inr rfl

/-- The second text is the first one, unless the first is nested too deeply,
and the first fails at limits only. -/
structure Settles {α : Type} (x y : Except Fault α) : Prop where
  same : SettlesDepth x y
  limit : ∀ f, x = .error f → IsLimit f

namespace Settles

variable {α β : Type}

theorem ok (a : α) : Settles (.ok a) (.ok a) := ⟨.inr rfl, by rintro f ⟨⟩⟩

theorem tooDeep (y : Except Fault α) : Settles (.error .tooDeep) y :=
  ⟨.inl rfl, by rintro f ⟨⟩; exact .tooDeep⟩

theorem tooManyDigits : Settles (.error .tooManyDigits : Except Fault α) (.error .tooManyDigits) :=
  ⟨.inr rfl, by rintro f ⟨⟩; exact .tooManyDigits⟩

theorem bind {x y : Except Fault α} {f g : α → Except Fault β} (h : Settles x y)
    (hf : ∀ a, Settles (f a) (g a)) : Settles (x >>= f) (y >>= g) := by
  refine ⟨h.same.bind fun a => (hf a).same, fun e he => ?_⟩
  cases x with
  | ok a => exact (hf a).limit e he
  | error e' =>
      cases he
      exact h.limit e rfl

theorem mapM {f g : α → Except Fault β} (hf : ∀ a, Settles (f a) (g a)) (items : List α) :
    Settles (items.mapM f) (items.mapM g) := by
  induction items with
  | nil => exact ok []
  | cons a items ih =>
      simp only [List.mapM_cons]
      exact (hf a).bind fun b => ih.bind fun bs => ok _

/-- Two texts of which each settles the other are the same. -/
theorem antisymm {x y : Except Fault α} (h : Settles x y) (k : Settles y x) : y = x := by
  rcases h.same with hx | hy
  · rcases k.same with hy | hy
    · rw [hx, hy]
    · exact hy.symm
  · exact hy

end Settles

namespace Store

variable {F : Type}

/-- The store with empty bodies for all closures. -/
def withoutBodies (s : Store F) : Store F :=
  { s with closures := s.closures.map fun k => { k with body := .nil } }

/-- The second store differs from the first in the bodies of closures and in
nothing else that printing looks at. -/
structure Alike (s t : Store F) : Prop where
  cells : t.cells = s.cells
  vectors : t.vectors = s.vectors
  formals : ∀ r : Ref, (t.closures[r]?).map Closure.formals = (s.closures[r]?).map Closure.formals
  frames : t.frames = s.frames
  primitives : t.primitives = s.primitives

namespace Alike

variable {s t : Store F}

protected theorem refl (s : Store F) : Alike s s := ⟨rfl, rfl, fun _ => rfl, rfl, rfl⟩

protected theorem symm (h : Alike s t) : Alike t s :=
  ⟨h.cells.symm, h.vectors.symm, fun r => (h.formals r).symm, h.frames.symm, h.primitives.symm⟩

/-- Only the bodies of closures are left out. -/
theorem withoutBodies (s : Store F) : Alike s s.withoutBodies := by
  refine ⟨rfl, rfl, fun r => ?_, rfl, rfl⟩
  simp only [Store.withoutBodies, Array.getElem?_map, Option.map_map]
  rfl

theorem inactive?_eq (h : Alike s t) (active : Active) (v : Value) :
    t.inactive? active v = s.inactive? active v := by
  cases v <;> simp [inactive?, h.cells]

end Alike

/-! ### Lists end -/

/-- A pair that is written has its fields, and is not active yet. -/
theorem inactive?_eq_some {s : Store F} {active : Active} {v : Value} {r : Ref} {c : Cell} :
    s.inactive? active v = some (r, c) ↔ v = .pair r ∧ r ∉ active ∧ s.cells[r]? = some c := by
  constructor
  · intro h
    cases v with
    | pair q =>
        simp only [inactive?] at h
        split at h
        · cases h
        · rename_i hq
          obtain ⟨c', hcell, hpair⟩ := Option.map_eq_some_iff.mp h
          cases hpair
          exact ⟨rfl, hq, hcell⟩
    | _ => cases h
  · rintro ⟨rfl, hr, hcell⟩
    simp [inactive?, hr, hcell]

/-- At least `n` pairs of the store are active. -/
def HasActive (s : Store F) (active : Active) (n : Nat) : Prop :=
  ∃ refs : List Ref, refs.Nodup ∧ refs.length = n ∧ ∀ r ∈ refs, r < s.cells.size ∧ r ∈ active

namespace HasActive

variable {s : Store F} {active : Active} {n : Nat}

theorem zero (s : Store F) (active : Active) : s.HasActive active 0 :=
  ⟨[], List.nodup_nil, rfl, by simp⟩

theorem le (h : s.HasActive active n) : n ≤ s.cells.size := by
  obtain ⟨refs, hnodup, rfl, hrefs⟩ := h
  exact length_le_of_nodup_of_lt hnodup fun r hr => (hrefs r hr).1

/-- A pair that becomes active is one more. -/
theorem insert {v : Value} {r : Ref} {c : Cell} (h : s.HasActive active n)
    (hv : s.inactive? active v = some (r, c)) : s.HasActive (active.insert r) (n + 1) := by
  obtain ⟨refs, hnodup, rfl, hrefs⟩ := h
  obtain ⟨-, hr, hcell⟩ := inactive?_eq_some.mp hv
  have hlt : r < s.cells.size := (Array.getElem?_eq_some_iff.mp hcell).1
  refine ⟨r :: refs, ?_, rfl, ?_⟩
  · exact List.nodup_cons.mpr ⟨fun hmem => hr (hrefs r hmem).2, hnodup⟩
  · simp only [List.mem_cons, forall_eq_or_imp]
    exact ⟨⟨hlt, by simp⟩, fun p hp => ⟨(hrefs p hp).1, by simp [(hrefs p hp).2]⟩⟩

end HasActive

/-! ### The printer -/

/-- The second writer adds what the first one adds, unless that is nested too
deeply. -/
def WriterSettles (x y : Writer) : Prop := ∀ active out v, Settles (x active out v) (y active out v)

variable {s t : Store F} {element element' : Writer}

theorem settles_writeRest (h : Alike s t) (he : WriterSettles element element') (fuel : Nat) :
    ∀ {n : Nat} {active : Active} (out : String) (rest : Value), s.HasActive active n →
      s.cells.size < n + fuel →
      Settles (s.writeRest element fuel active out rest)
        (t.writeRest element' fuel active out rest) := by
  -- On the count. Every pair that is counted becomes active, so the count
  -- ends when there are no other pairs left.
  induction fuel with
  | zero =>
      intro n active out rest hactive hfuel
      have hle := hactive.le
      omega
  | succ fuel ih =>
      intro n active out rest hactive hfuel
      rw [writeRest, writeRest, h.inactive?_eq]
      cases hrest : s.inactive? active rest with
      | some found =>
          obtain ⟨r, c⟩ := found
          exact (he _ _ _).bind fun out => ih out c.cdr (hactive.insert hrest) (by omega)
      | none =>
          dsimp only
          split
          · exact .ok _
          · exact (he _ _ _).bind fun out => .ok _

theorem settles_writeItems (he : WriterSettles element element') (active : Active)
    (items : List Value) : ∀ out : String,
      Settles (writeItems element active out items) (writeItems element' active out items) := by
  induction items with
  | nil => intro out; exact .ok out
  | cons v items ih =>
      intro out
      cases items with
      | nil => exact he _ _ _
      | cons w items => exact (he _ _ _).bind fun out => ih _

theorem settles_writeValue (h : Alike s t) (he : WriterSettles element element') :
    WriterSettles (s.writeValue element) (t.writeValue element') := by
  intro active out v
  cases v with
  | number n =>
      rw [writeValue, writeValue]
      split
      · exact .ok _
      · exact .tooManyDigits
  | pair r =>
      rw [writeValue, writeValue, h.inactive?_eq]
      cases hr : s.inactive? active (.pair r) with
      | none => exact .ok _
      | some found =>
          obtain ⟨q, c⟩ := found
          refine (he _ _ _).bind fun out => ?_
          rw [h.cells]
          exact settles_writeRest h he _ out c.cdr ((HasActive.zero s active).insert hr) (by omega)
  | vector r =>
      rw [writeValue, writeValue, h.vectors]
      exact (settles_writeItems he _ _ _).bind fun out => .ok _
  | closure r =>
      have hformals := h.formals r
      rw [writeValue, writeValue]
      -- Both closures are there, with the same parameters, or neither is.
      cases hs : s.closures[r]? with
      | none =>
          rw [hs, Option.map_none, Option.map_eq_none_iff] at hformals
          rw [hformals]
          exact .ok _
      | some k =>
          rw [hs] at hformals
          obtain ⟨k', hk', hformals⟩ := Option.map_eq_some_iff.mp hformals
          rw [hk']
          dsimp only
          rw [hformals]
          exact (he _ _ _).bind fun out => .ok _
  | primitive r =>
      rw [writeValue, writeValue, h.primitives]
      exact .ok _
  | text | symbol | boolean | nil | emptySequence | foreign => exact .ok _

variable {d d' : Nat}

theorem settles_writeTo (h : Alike s t) (hd : d ≤ d') :
    WriterSettles (s.writeTo d) (t.writeTo d') := by
  induction d generalizing d' with
  | zero => exact fun _ _ _ => .tooDeep _
  | succ d ih =>
      obtain ⟨e, rfl⟩ : ∃ e, d' = e + 1 := ⟨d' - 1, by omega⟩
      exact settles_writeValue h (ih (by omega))

theorem settles_write (h : Alike s t) (hd : d ≤ d') (v : Value) :
    Settles (s.write d v) (t.write d' v) :=
  settles_writeTo h hd _ _ _

theorem settles_inspect (h : Alike s t) (hd : d ≤ d') (v : Value) :
    Settles (s.inspect d v) (t.inspect d' v) := by
  induction d generalizing d' v with
  | zero => exact .tooDeep _
  | succ d ih =>
      obtain ⟨e, rfl⟩ : ∃ e, d' = e + 1 := ⟨d' - 1, by omega⟩
      -- Only vectors are inspected element by element; the rest is written.
      have hwrite := settles_write h hd v
      cases v with
      | text | symbol => exact .ok _
      | vector r =>
          rw [inspect, inspect, h.vectors]
          exact (Settles.mapM (fun v => ih (by omega) v) _).bind fun items => .ok _
      | _ => exact hwrite

theorem settles_display (h : Alike s t) (hd : d ≤ d') (v : Value) :
    Settles (s.display d v) (t.display d' v) := by
  have hinspect := settles_inspect h hd v
  cases v with
  | text | symbol => exact .ok _
  | _ => exact hinspect

theorem settles_showFrame (h : Alike s t) (hd : d ≤ d') (r : Ref) :
    Settles (s.showFrame d r) (t.showFrame d' r) := by
  rw [showFrame, showFrame, h.frames]
  split
  · refine Settles.bind (Settles.bind (Settles.mapM (fun b => ?_) _) fun items => .ok _)
      fun shown => .ok _
    exact (settles_inspect h hd b.2).bind fun shown => .ok _
  · exact .ok _

end Store

end MiniScheme
