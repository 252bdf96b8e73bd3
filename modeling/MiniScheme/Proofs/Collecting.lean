import Mathlib.Data.List.Perm.Subperm
import MiniScheme.Proofs.References

/-!
# `MiniScheme.Proofs.Collecting`: the objects that a deep copy is made of

`Store.reach` walks from an object along its parts, depth first, and puts each
object on a list when it meets it first. Its parts are on the list by the end,
but not before: objects that the walk has entered and not left yet are on the
list without all of their parts.

So the statement about one walk is about what it adds. All objects that were
not on the list before can be reached and have their parts on the list after it
(`Collected.new`). Walks one after the other add up (`Collected.cons`), and a
walk from an object is the object and walks from its parts (`Collected.enter`).
A walk from scratch then collects exactly what can be reached
(`mem_reach_iff`).

The only fault is nesting (`reach_eq_error`). Objects that the walk has entered
are on the list once each, so there are no more of them than objects in all
(`exists_reach`).
-/

set_option autoImplicit false

namespace MiniScheme

namespace Store

variable {s : Store} {x : Object} {found found' mid xs roots : List Object}

/-! ### What can be reached -/

theorem Reachable.trans {o : Object} (h : s.Reachable roots o)
    (hroots : ∀ x ∈ roots, s.Reachable xs x) : s.Reachable xs o := by
  induction h with
  | root mem => exact hroots _ mem
  | part _ mem ih => exact .part ih mem

theorem Reachable.mono {o : Object} (h : s.Reachable roots o) (hroots : ∀ x ∈ roots, x ∈ xs) :
    s.Reachable xs o :=
  h.trans fun x hx => .root (hroots x hx)

/-- What can be reached from the parts of an object can be reached from it. -/
theorem Reachable.of_parts {o : Object} (h : s.Reachable (s.parts x) o) : s.Reachable [x] o :=
  h.trans fun _ hp => .part (.root List.mem_cons_self) hp

/-! ### What is collected -/

/-- From the first list to the second, the objects that can be reached from `xs`
were added, up to those that were there. -/
structure Collected (s : Store) (xs found found' : List Object) : Prop where
  kept : ∀ o ∈ found, o ∈ found'
  all : ∀ o ∈ xs, o ∈ found'
  new : ∀ o ∈ found', o ∈ found ∨ s.Reachable xs o ∧ ∀ p ∈ s.parts o, p ∈ found'
  nodup : found.Nodup → found'.Nodup

namespace Collected

theorem nil (s : Store) (found : List Object) : s.Collected [] found found :=
  ⟨fun _ h => h, by simp, fun _ h => .inl h, fun h => h⟩

/-- An object that was there adds nothing. -/
theorem of_mem (h : x ∈ found) : s.Collected [x] found found :=
  ⟨fun _ h => h, by simpa using h, fun _ h => .inl h, fun h => h⟩

theorem cons (h : s.Collected [x] found mid) (k : s.Collected xs mid found') :
    s.Collected (x :: xs) found found' where
  kept o ho := k.kept o (h.kept o ho)
  all o ho := by
    rcases List.mem_cons.mp ho with rfl | ho
    · exact k.kept o (h.all o List.mem_cons_self)
    · exact k.all o ho
  new o ho := by
    rcases k.new o ho with hmid | ⟨hreach, hparts⟩
    · refine (h.new o hmid).imp_right fun ⟨hreach, hparts⟩ => ⟨?_, fun p hp => ?_⟩
      · exact hreach.mono (by simp)
      · exact k.kept p (hparts p hp)
    · exact .inr ⟨hreach.mono fun y hy => List.mem_cons_of_mem x hy, hparts⟩
  nodup hnodup := k.nodup (h.nodup hnodup)

/-- A new object is added, and then what its parts lead to. -/
theorem enter (hx : x ∉ found) (h : s.Collected (s.parts x) (x :: found) found') :
    s.Collected [x] found found' where
  kept o ho := h.kept o (List.mem_cons_of_mem x ho)
  all o ho := by
    obtain rfl := List.mem_singleton.mp ho
    exact h.kept o List.mem_cons_self
  new o ho := by
    rcases h.new o ho with hmem | ⟨hreach, hparts⟩
    · rcases List.mem_cons.mp hmem with rfl | hmem
      · exact .inr ⟨.root List.mem_cons_self, h.all⟩
      · exact .inl hmem
    · exact .inr ⟨hreach.of_parts, hparts⟩
  nodup hnodup := h.nodup (List.nodup_cons.mpr ⟨hx, hnodup⟩)

end Collected

/-- Walks one after the other, of which each one collects. -/
theorem collected_foldlM {walk : List Object → Object → Except Fault (List Object)}
    (hwalk : ∀ found x found', walk found x = .ok found' → s.Collected [x] found found')
    (xs : List Object) : ∀ {found found' : List Object}, xs.foldlM walk found = .ok found' →
      s.Collected xs found found' := by
  induction xs with
  | nil =>
      intro found found' h
      cases h
      exact .nil s found
  | cons x xs ih =>
      intro found found' h
      rw [List.foldlM_cons] at h
      cases hmid : walk found x with
      | error e => rw [hmid] at h; cases h
      | ok mid =>
          rw [hmid] at h
          exact (hwalk found x mid hmid).cons (ih h)

/-- A walk collects what can be reached. -/
theorem collected_reach (depth : Nat) : ∀ {found found' : List Object} {x : Object},
    s.reach depth found x = .ok found' → s.Collected [x] found found' := by
  induction depth with
  | zero => exact nofun
  | succ depth ih =>
      intro found found' x h
      rw [reach] at h
      split at h
      · rename_i hx
        cases h
        exact .of_mem hx
      · rename_i hx
        exact .enter hx (collected_foldlM (fun _ _ _ => ih) _ h)

/-- A walk from scratch collects exactly what can be reached. -/
theorem mem_reach_iff {depth : Nat} (h : s.reach depth [] x = .ok found') {o : Object} :
    o ∈ found' ↔ s.Reachable [x] o := by
  have hcollected := collected_reach depth h
  have hnew : ∀ o ∈ found', s.Reachable [x] o ∧ ∀ p ∈ s.parts o, p ∈ found' := fun o ho =>
    (hcollected.new o ho).resolve_left List.not_mem_nil
  refine ⟨fun ho => (hnew o ho).1, fun ho => ?_⟩
  induction ho with
  | root mem => exact hcollected.all _ mem
  | part _ mem ih => exact (hnew _ ih).2 _ mem

/-! ### The walk ends -/

/-- Steps one after the other fail where one of them does. -/
theorem exists_of_foldlM_eq_error {α β ε : Type} {f : β → α → Except ε β} {e : ε} (xs : List α) :
    ∀ {b : β}, xs.foldlM f b = .error e → ∃ b' a, f b' a = .error e := by
  induction xs with
  | nil => exact nofun
  | cons a xs ih =>
      intro b h
      rw [List.foldlM_cons] at h
      cases hstep : f b a with
      | error e' =>
          rw [hstep] at h
          cases h
          exact ⟨b, a, hstep⟩
      | ok b' =>
          rw [hstep] at h
          exact ih h

/-- Steps that never fail and keep up what they rely on do not fail one after the
other. -/
theorem exists_foldlM {α β ε : Type} {f : β → α → Except ε β} {P : β → Prop} {xs : List α}
    (h : ∀ b, P b → ∀ a ∈ xs, ∃ b', f b a = .ok b' ∧ P b') :
    ∀ {b : β}, P b → ∃ b', xs.foldlM f b = .ok b' := by
  induction xs with
  | nil => exact fun {b} _ => ⟨b, rfl⟩
  | cons a xs ih =>
      intro b hb
      obtain ⟨b', hstep, hb'⟩ := h b hb a List.mem_cons_self
      obtain ⟨b'', hrest⟩ := ih (fun b hb a ha => h b hb a (List.mem_cons_of_mem _ ha)) hb'
      exact ⟨b'', by rw [List.foldlM_cons, hstep]; exact hrest⟩

/-- Nesting is the only fault. -/
theorem reach_eq_error (depth : Nat) : ∀ {found : List Object} {x : Object} {e : Fault},
    s.reach depth found x = .error e → e = .tooDeep := by
  induction depth with
  | zero =>
      intro found x e h
      cases h
      rfl
  | succ depth ih =>
      intro found x e h
      rw [reach] at h
      split at h
      · cases h
      · obtain ⟨_, _, hwalk⟩ := exists_of_foldlM_eq_error _ h
        exact ih hwalk

/-- All objects of a store. -/
def objects (s : Store) : List Object :=
  (List.range s.cells.size).map .cell ++ (List.range s.vectors.size).map .vector ++
    (List.range s.closures.size).map .closure ++ (List.range s.primitives.size).map .primitive ++
    (List.range s.frames.size).map .frame

theorem mem_objects_iff {o : Object} : o ∈ s.objects ↔ s.Has o := by
  cases o <;> simp [objects, Has]

/-- The objects that were met on a walk, with so many levels left. -/
structure Underway (s : Store) (root : Object) (depth : Nat) (found : List Object) : Prop where
  nodup : found.Nodup
  reached : ∀ o ∈ found, s.Reachable [root] o
  levels : s.objects.length < depth + found.length

/-- There are no more of them than objects in all. -/
theorem Underway.depth_pos {root : Object} {depth : Nat} (h : s.Underway root depth found)
    (hroot : ∀ o, s.Reachable [root] o → s.Has o) : 0 < depth := by
  have hlength : found.length ≤ s.objects.length :=
    (h.nodup.subperm fun o ho => mem_objects_iff.mpr (hroot o (h.reached o ho))).length_le
  have := h.levels
  omega

/-- A walk to something that can be reached leaves enough levels for the next. -/
theorem Underway.next {root : Object} {depth : Nat} (h : s.Underway root depth found)
    (hx : s.Reachable [root] x) (hcollected : s.Collected [x] found found') :
    s.Underway root depth found' where
  nodup := hcollected.nodup h.nodup
  reached o ho := by
    rcases hcollected.new o ho with hold | ⟨hreach, -⟩
    · exact h.reached o hold
    · exact hreach.trans (by simpa using hx)
  levels := by
    have hlength : found.length ≤ found'.length := (h.nodup.subperm hcollected.kept).length_le
    have := h.levels
    omega

/-- A walk ends if there are more levels than objects that were not met. -/
theorem exists_reach {root : Object} (hroot : ∀ o, s.Reachable [root] o → s.Has o) (depth : Nat) :
    ∀ {found : List Object} {x : Object}, s.Underway root depth found → s.Reachable [root] x →
      ∃ found', s.reach depth found x = .ok found' := by
  induction depth with
  | zero => exact fun h _ => absurd (h.depth_pos hroot) (Nat.lt_irrefl 0)
  | succ depth ih =>
      intro found x h hx
      rw [reach]
      split
      · exact ⟨found, rfl⟩
      · rename_i hnew
        have hentered : s.Underway root depth (x :: found) := by
          refine ⟨List.nodup_cons.mpr ⟨hnew, h.nodup⟩, by simpa using ⟨hx, h.reached⟩, ?_⟩
          have := h.levels
          rw [List.length_cons]
          omega
        refine exists_foldlM (P := s.Underway root depth) (fun found h p hp => ?_) hentered
        have hreached : s.Reachable [root] p := .part hx hp
        obtain ⟨found', hwalk⟩ := ih h hreached
        exact ⟨found', hwalk, h.next hreached (collected_reach depth hwalk)⟩

/-- A walk from scratch ends if there are more levels than objects. -/
theorem exists_reach_nil {root : Object} (hroot : ∀ o, s.Reachable [root] o → s.Has o)
    {depth : Nat} (hdepth : s.objects.length < depth) :
    ∃ found, s.reach depth [] root = .ok found :=
  exists_reach hroot depth ⟨List.nodup_nil, by simp, by simpa using hdepth⟩
    (.root List.mem_cons_self)

end Store

end MiniScheme
