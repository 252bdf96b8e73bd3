import MiniScheme.Proofs.MemoCopies

/-!
# `MiniScheme.Proofs.HeapCopies`: paths through a deep copy

When the copier is done, all copies that its memo names are finished
(`Copying.Whole`). Then a path leads from the copy of an object to the image of
what it leads to from the object (`follow_image`). The image of an atom is this
atom, the images of pairs and vectors are new objects, and no two objects have the
same image. This is what it means that the copy has the same shape
(`Heap.SameShape`), with the same answers of all tests.

No pair of the copy can be reached from the original and none of the original from
the copy. So a later write to one of the two leaves the other one as it was
(`Later.asBefore`).
-/

set_option autoImplicit false

namespace MiniScheme

namespace Content

variable {o : Content}

theorem withCar_of_not_isCompound {v : Address} (ho : o.isCompound = false) : o.withCar v = o := by
  cases o <;> first | rfl | cases ho

theorem withCdr_of_not_isCompound {v : Address} (ho : o.isCompound = false) : o.withCdr v = o := by
  cases o <;> first | rfl | cases ho

theorem refill_of_not_isCompound (ho : o.isCompound = false) (fields : List Address) :
    o.refill fields = o := by
  cases o <;> first | rfl | cases ho

/-- An object with other fields is of the same class. -/
theorem kind_refill (o : Content) (fields : List Address) : (o.refill fields).kind = o.kind := by
  fun_cases refill o fields <;> rfl

theorem isCompound_refill (o : Content) (fields : List Address) :
    (o.refill fields).isCompound = o.isCompound := by
  fun_cases refill o fields <;> rfl

theorem parts_refill (f : Address → Address) :
    (o.refill (o.parts.map f)).parts = o.parts.map f := by
  match o with
  | .pair none | .pair (some (_, _)) | .vector _ => rfl
  | .number _ | .text _ | .symbol _ | .boolean _ | .emptyList | .emptySequence => rfl

theorem isOrdinary_refill (ho : o.isCompound = true) (hfilled : o ≠ .pair none)
    (f : Address → Address) : (o.refill (o.parts.map f)).IsOrdinary := by
  match o, ho with
  | .pair none, _ => exact absurd rfl hfilled
  | .pair (some (_, _)), _ | .vector _, _ => trivial

end Content

/-! ### The copier is done -/

namespace Copying

variable {h : Heap} {k : Copying} {a b c x : Address} {o : Content} {path : List Selector}

/-- All copies that the memo names are finished. -/
structure Whole (h : Heap) (k : Copying) : Prop extends Sound h k where
  complete : ∀ {a c : Address}, k.memo.lookup a = some c → Complete h k a c

theorem Copied.whole (hcopied : Copied h [a] ⟨h, []⟩ [c] k) : Whole h k :=
  ⟨hcopied.sound, fun hc => ((hcopied.new hc).resolve_left nofun).1⟩

namespace Whole

/-- The image of an object has the images of its parts. -/
theorem getElem?_image (hk : Whole h k) (hknown : Known h k b) :
    k.heap.objects[k.image b]? = h.objects[b]?.map fun o => o.refill (o.parts.map k.image) := by
  obtain ⟨o, hb, hcopied⟩ := hknown
  rw [hb]
  cases ho : o.isCompound with
  | false =>
      rw [hk.image_eq hb ho, hk.getElem? hb, Option.map_some, Content.refill_of_not_isCompound ho]
  | true =>
      obtain ⟨c, hc⟩ := hcopied ho
      obtain ⟨o', hb', hcontent, -⟩ := hk.complete hc
      obtain rfl := Option.some.inj (hb.symm.trans hb')
      rw [image_of_lookup hc, hcontent, Option.map_some]

/-- The image of a pair or vector is new. -/
theorem le_image (hk : Whole h k) (hknown : Known h k b) (hb : h.objects[b]? = some o)
    (ho : o.isCompound = true) : h.objects.size ≤ k.image b := by
  obtain ⟨o', hb', hcopied⟩ := hknown
  obtain rfl := Option.some.inj (hb.symm.trans hb')
  obtain ⟨c, hc⟩ := hcopied ho
  rw [image_of_lookup hc]
  exact (hk.new hc).1

/-- No two objects have the same image. -/
theorem image_inj (hk : Whole h k) (ha : Known h k a) (hb : Known h k b)
    (heq : k.image a = k.image b) : a = b := by
  have hlt {c : Address} {o : Content} (hc : h.objects[c]? = some o) (ho : o.isCompound = false) :
      k.image c < h.objects.size := by
    rw [hk.image_eq hc ho]
    exact Heap.lt_of_getElem? hc
  -- Images of atoms are old and those of pairs and vectors are new, so the two do not meet.
  obtain ⟨o, hao, hcopied⟩ := id ha
  obtain ⟨o', hbo, hcopied'⟩ := id hb
  cases ho : o.isCompound <;> cases ho' : o'.isCompound
  · rwa [hk.image_eq hao ho, hk.image_eq hbo ho'] at heq
  · exact absurd (heq ▸ hk.le_image hb hbo ho') (Nat.not_le.mpr (hlt hao ho))
  · exact absurd (heq.symm ▸ hk.le_image ha hao ho) (Nat.not_le.mpr (hlt hbo ho'))
  · obtain ⟨c, hc⟩ := hcopied ho
    obtain ⟨c', hc'⟩ := hcopied' ho'
    rw [image_of_lookup hc, image_of_lookup hc'] at heq
    subst heq
    exact hk.inj hc hc'

/-- An image is an atom where the original is this atom. -/
theorem getElem?_image_eq_some_iff (hk : Whole h k) (hknown : Known h k b)
    (ho : o.isCompound = false) : k.heap.objects[k.image b]? = some o ↔ h.objects[b]? = some o := by
  rw [hk.getElem?_image hknown, Option.map_eq_some_iff]
  constructor
  · rintro ⟨o', hb, rfl⟩
    rw [Content.isCompound_refill] at ho
    rw [hb, Content.refill_of_not_isCompound ho]
  · exact fun hb => ⟨o, hb, Content.refill_of_not_isCompound ho _⟩

theorem image_lt (hk : Whole h k) (hknown : Known h k b) : k.image b < k.heap.objects.size := by
  obtain ⟨o, hb, -⟩ := id hknown
  exact Heap.lt_of_getElem? ((hk.getElem?_image hknown).trans (by rw [hb, Option.map_some]))

/-- A new object is the copy of a pair or vector, with the images of its parts. -/
theorem exists_original (hk : Whole h k) (hge : h.objects.size ≤ c)
    (hc : k.heap.objects[c]? = some o) :
    ∃ b original, k.memo.lookup b = some c ∧ h.objects[b]? = some original ∧
      original.isCompound = true ∧ o = original.refill (original.parts.map k.image) ∧
      ∀ p ∈ original.parts, Known h k p := by
  obtain ⟨b, hb⟩ := hk.all hge (Heap.lt_of_getElem? hc)
  obtain ⟨original, hbo, hcontent, hparts⟩ := hk.complete hb
  obtain ⟨original', hbo', ho⟩ := hk.keys (mem_keys_of_lookup hb)
  obtain rfl := Option.some.inj (hbo.symm.trans hbo')
  exact ⟨b, original, hb, hbo, ho, Option.some.inj (hc.symm.trans hcontent), hparts⟩

/-- The copier leaves the heap well-formed. -/
theorem wellFormed (hk : Whole h k) (hwf : h.WellFormed) : k.heap.WellFormed := by
  refine hwf.grown (fun a ha => hk.old ha) hk.symbols fun c o hge hc => ?_
  obtain ⟨b, original, -, hbo, ho, rfl, hparts⟩ := hk.exists_original hge hc
  refine ⟨Content.isOrdinary_refill ho (fun hnone => hwf.filled (hnone ▸ hbo)) _, fun p hp => ?_⟩
  rw [Content.parts_refill] at hp
  obtain ⟨q, hq, rfl⟩ := List.mem_map.mp hp
  exact hk.image_lt (hparts q hq)

/-- What a step leads to from something known is known. -/
theorem known_child? (hk : Whole h k) (hknown : Known h k b) {selector : Selector}
    (hx : h.child? b selector = some x) : Known h k x := by
  obtain ⟨o, hb, hcopied⟩ := hknown
  rw [Heap.child?, hb, Option.bind_some] at hx
  cases ho : o.isCompound with
  | false =>
      rw [Content.child?_eq_none ho] at hx
      cases hx
  | true =>
      obtain ⟨c, hc⟩ := hcopied ho
      obtain ⟨o', hb', -, hparts⟩ := hk.complete hc
      obtain rfl := Option.some.inj (hb.symm.trans hb')
      exact hparts x (Content.mem_parts_iff.mpr ⟨selector, hx⟩)

/-- A step from the image leads to the image of what the step leads to. -/
theorem child?_image (hk : Whole h k) (hknown : Known h k b) (selector : Selector) :
    k.heap.child? (k.image b) selector = (h.child? b selector).map k.image := by
  rw [Heap.child?, Heap.child?, hk.getElem?_image hknown]
  cases h.objects[b]? with
  | none => rfl
  | some o => exact Content.child?_refill k.image selector

theorem known_follow (hk : Whole h k) (hknown : Known h k a) (hpath : h.follow a path = some x) :
    Known h k x :=
  Heap.Reaches.kept (fun hknown hx => hk.known_child? hknown hx) hknown ⟨path, hpath⟩

/-- A path from the image leads to the image of what the path leads to. -/
theorem follow_image (hk : Whole h k) (hknown : Known h k a) (path : List Selector) :
    k.heap.follow (k.image a) path = (h.follow a path).map k.image := by
  induction path generalizing a with
  | nil => rfl
  | cons selector path ih =>
      rw [Heap.follow, Heap.follow, hk.child?_image hknown]
      cases hb : h.child? a selector with
      | none => rfl
      | some b => exact ih (hk.known_child? hknown hb)

/-- A path from the image leads to an atom if the path leads to this atom. -/
theorem follow_image_eq_some_iff (hk : Whole h k) (hknown : Known h k a)
    (hb : k.heap.objects[b]? = some o) (ho : o.isCompound = false) :
    k.heap.follow (k.image a) path = some b ↔ h.follow a path = some b := by
  rw [hk.follow_image hknown, Option.map_eq_some_iff]
  constructor
  · rintro ⟨x, hx, rfl⟩
    have hxo := (hk.getElem?_image_eq_some_iff (hk.known_follow hknown hx) ho).mp hb
    rwa [hk.image_eq hxo ho]
  · intro hx
    obtain ⟨o', hbo, -⟩ := hk.known_follow hknown hx
    obtain rfl := Option.some.inj (hb.symm.trans (hk.getElem? hbo))
    exact ⟨b, hx, hk.image_eq hbo ho⟩

/-- Two paths meet from the image if they meet from the object. -/
theorem follow_image_eq_iff (hk : Whole h k) (hknown : Known h k a) {path' : List Selector} :
    k.heap.follow (k.image a) path = k.heap.follow (k.image a) path' ↔
      h.follow a path = h.follow a path' := by
  rw [hk.follow_image hknown, hk.follow_image hknown]
  refine ⟨fun heq => ?_, congrArg _⟩
  cases hx : h.follow a path with
  | none =>
      rw [hx, Option.map_none] at heq
      exact (Option.map_eq_none_iff.mp heq.symm).symm
  | some x =>
      rw [hx, Option.map_some] at heq
      obtain ⟨x', hx', himages⟩ := Option.map_eq_some_iff.mp heq.symm
      rw [hx', hk.image_inj (hk.known_follow hknown hx) (hk.known_follow hknown hx')
        himages.symm]

end Whole

end Copying

namespace Heap

variable {h h' u : Heap} {a b c : Address} {o : Content} {path : List Selector}

/-! ### The shape of an object -/

/-- The class of an object. -/
def kind? (h : Heap) (a : Address) : Option Kind := h.objects[a]?.map Content.kind

/-- There is an atom at the address. -/
def IsAtom (h : Heap) (a : Address) : Prop := ∃ o, h.objects[a]? = some o ∧ o.isCompound = false

/-- The object `c` has the shape that `a` has. The same paths lead somewhere, and to
objects of the same class. They lead to the identical atoms, and two paths meet from
the one object if and only if they meet from the other. All tests of programs answer
the same along them. -/
structure SameShape (h : Heap) (a : Address) (h' : Heap) (c : Address) : Prop where
  kinds : ∀ path, (h'.follow c path).bind h'.kind? = (h.follow a path).bind h.kind?
  atoms : ∀ path b, h'.IsAtom b → (h'.follow c path = some b ↔ h.follow a path = some b)
  meet : ∀ path path', h'.follow c path = h'.follow c path' ↔ h.follow a path = h.follow a path'
  isNull : ∀ path x y, h.follow a path = some x → h'.follow c path = some y → isNull y = isNull x
  isTrue : ∀ path x y, h.follow a path = some x → h'.follow c path = some y → isTrue y = isTrue x
  isSymbol : ∀ path x y, h.follow a path = some x → h'.follow c path = some y →
    h'.isSymbol y = h.isSymbol x
  same : ∀ path x y path' x' y', h.follow a path = some x → h'.follow c path = some y →
    h.follow a path' = some x' → h'.follow c path' = some y' → h'.same y y' = h.same x x'
  sameAsAtom : ∀ path x y b, h.follow a path = some x → h'.follow c path = some y →
    h.IsAtom b → h'.same y b = h.same x b

end Heap

namespace Copying.Whole

variable {h : Heap} {k : Copying} {a b x y : Address} {path : List Selector}

theorem kind?_image (hk : Whole h k) (hknown : Known h k b) :
    k.heap.kind? (k.image b) = h.kind? b := by
  rw [Heap.kind?, hk.getElem?_image hknown, Option.map_map, Heap.kind?]
  exact congrArg (h.objects[b]?.map ·) (funext fun o => Content.kind_refill o _)

/-- Images are one object where the originals are. -/
theorem same_image (hk : Whole h k) (ha : Known h k a) (hb : Known h k b) :
    k.heap.same (k.image a) (k.image b) = h.same a b := by
  by_cases hnumbers : ∃ m n, h.objects[a]? = some (.number m) ∧ h.objects[b]? = some (.number n)
  · obtain ⟨m, n, hao, hbo⟩ := hnumbers
    rw [Heap.same, Heap.same, (hk.getElem?_image_eq_some_iff ha rfl).mpr hao,
      (hk.getElem?_image_eq_some_iff hb rfl).mpr hbo, hao, hbo]
  · rw [Heap.same_eq_decide hnumbers, Heap.same_eq_decide]
    · exact decide_eq_decide.mpr ⟨hk.image_inj ha hb, congrArg _⟩
    · rintro ⟨m, n, hm, hn⟩
      exact hnumbers ⟨m, n, (hk.getElem?_image_eq_some_iff ha rfl).mp hm,
        (hk.getElem?_image_eq_some_iff hb rfl).mp hn⟩

/-- The image of an object has its shape. -/
theorem sameShape (hk : Whole h k) (hwf : h.WellFormed) (hknown : Known h k a) :
    Heap.SameShape h a k.heap (k.image a) := by
  have hwf' := hk.wellFormed hwf
  have himage {path : List Selector} {x y : Address} (hx : h.follow a path = some x)
      (hy : k.heap.follow (k.image a) path = some y) : Known h k x ∧ y = k.image x := by
    rw [hk.follow_image hknown, hx] at hy
    exact ⟨hk.known_follow hknown hx, (Option.some.inj hy).symm⟩
  have hatom {b : Address} (hb : h.IsAtom b) : Known h k b ∧ k.image b = b := by
    obtain ⟨o, hbo, ho⟩ := hb
    exact ⟨⟨o, hbo, by simp [ho]⟩, hk.image_eq hbo ho⟩
  exact {
    kinds := fun path => by
      rw [hk.follow_image hknown]
      cases hx : h.follow a path with
      | none => rfl
      | some x => exact hk.kind?_image (hk.known_follow hknown hx)
    atoms := fun path b hb => by
      obtain ⟨o, hbo, ho⟩ := hb
      exact hk.follow_image_eq_some_iff hknown hbo ho
    meet := fun path path' => hk.follow_image_eq_iff hknown
    isNull := fun path x y hx hy => by
      obtain ⟨hx, rfl⟩ := himage hx hy
      rw [Bool.eq_iff_iff, hwf'.isNull_iff, hwf.isNull_iff, hk.getElem?_image_eq_some_iff hx rfl]
    isTrue := fun path x y hx hy => by
      obtain ⟨hx, rfl⟩ := himage hx hy
      rw [Bool.eq_iff_iff, hwf'.isTrue_iff, hwf.isTrue_iff, ne_eq, ne_eq,
        hk.getElem?_image_eq_some_iff hx rfl]
    isSymbol := fun path x y hx hy => by
      obtain ⟨hx, rfl⟩ := himage hx hy
      rw [Bool.eq_iff_iff, Heap.isSymbol_iff, Heap.isSymbol_iff]
      exact exists_congr fun name => hk.getElem?_image_eq_some_iff hx rfl
    same := fun path x y path' x' y' hx hy hx' hy' => by
      obtain ⟨hx, rfl⟩ := himage hx hy
      obtain ⟨hx', rfl⟩ := himage hx' hy'
      exact hk.same_image hx hx'
    sameAsAtom := fun path x y b hx hy hb => by
      obtain ⟨hx, rfl⟩ := himage hx hy
      obtain ⟨hb, hself⟩ := hatom hb
      have hsame := hk.same_image hx hb
      rwa [hself] at hsame }

end Copying.Whole

namespace Heap

variable {h h' u : Heap} {a b c : Address} {o : Content} {path : List Selector}
  {pairs : Address → Prop}

/-- A deep copy is the image of the object when the copier is done. All that was
copied can be reached from the object. -/
theorem exists_whole {depth : Nat} (hwf : h.WellFormed) (ha : a < h.objects.size)
    (hcopy : h.deepCopy depth a = .ok (c, h')) :
    ∃ k, Copying.Whole h k ∧ Copying.Known h k a ∧ c = k.image a ∧ h' = k.heap ∧
      ∀ b c', k.memo.lookup b = some c' → h.Reaches a b := by
  obtain ⟨⟨c', k⟩, hcall, hresult⟩ := Except.map_eq_ok hcopy
  cases hresult
  have hcopied := Copying.copied_copyFrom hwf depth (.start h) ha hcall
  refine ⟨k, hcopied.whole, hcopied.known a List.mem_cons_self,
    (List.cons.inj hcopied.results_eq).1, rfl, fun b c' hc => ?_⟩
  obtain ⟨-, root, hroot, hreaches⟩ := (hcopied.new hc).resolve_left nofun
  exact List.mem_singleton.mp hroot ▸ hreaches

/-- There is a deep copy if there are more levels than objects. -/
theorem exists_deepCopy {depth : Nat} (hwf : h.WellFormed) (ha : a < h.objects.size)
    (hdepth : h.objects.size < depth) : ∃ c h', h.deepCopy depth a = .ok (c, h') := by
  obtain ⟨c, k, hcall⟩ := Copying.exists_copyFrom hwf depth (.start h) ha hdepth
  exact ⟨c, k.heap, by rw [deepCopy, hcall]; rfl⟩

/-- Nesting is the only fault. -/
theorem deepCopy_eq_error {depth : Nat} {e : Fault} (hcopy : h.deepCopy depth a = .error e) :
    e = .tooDeep :=
  Copying.copyFrom_eq_error depth (Except.map_eq_error hcopy)

/-! ### Writing to one of the two -/

/-- All that the object leads to is in the second heap as it is in the first. -/
def AsBefore (h u : Heap) (a : Address) : Prop :=
  ∀ path, u.follow a path = h.follow a path ∧
    ∀ b, h.follow a path = some b → u.objects[b]? = h.objects[b]?

/-- A later heap. Until then, programs may have written to these pairs and to pairs
made since, and have made objects. -/
inductive Later (h : Heap) (pairs : Address → Prop) : Heap → Prop
  | now : Later h pairs h
  | setCar {u : Heap} {a : Address} (v : Address) (before : Later h pairs u)
      (mem : pairs a ∨ h.objects.size ≤ a) : Later h pairs (u.setCar a v)
  | setCdr {u : Heap} {a : Address} (v : Address) (before : Later h pairs u)
      (mem : pairs a ∨ h.objects.size ≤ a) : Later h pairs (u.setCdr a v)
  | add {u : Heap} (o : Content) (before : Later h pairs u) : Later h pairs (u.add o).2
  | intern {u : Heap} (name : String) (before : Later h pairs u) :
      Later h pairs (u.intern name).2

/-- What agrees on all that the object leads to is as before. -/
theorem asBefore_of_reaches (hsame : ∀ b, h.Reaches a b → u.objects[b]? = h.objects[b]?) :
    h.AsBefore u a := by
  refine fun path => ⟨?_, fun b hb => hsame b ⟨path, hb⟩⟩
  induction path generalizing a with
  | nil => rfl
  | cons selector path ih =>
      rw [follow, follow, child?, hsame a (.refl h a), ← child?]
      cases hb : h.child? a selector with
      | none => rfl
      | some b =>
          refine ih fun x hx => hsame x ?_
          obtain ⟨rest, hrest⟩ := hx
          exact ⟨selector :: rest, by rw [follow, hb, Option.bind_some, hrest]⟩

theorem AsBefore.trans (hfirst : h.AsBefore h' a) (hsecond : h'.AsBefore u a) : h.AsBefore u a :=
  fun path => ⟨(hsecond path).1.trans (hfirst path).1, fun b hb =>
    ((hsecond path).2 b ((hfirst path).1.trans hb)).trans ((hfirst path).2 b hb)⟩

/-- What an object of a well-formed heap leads to is there. -/
theorem WellFormed.exists_of_reaches (hwf : h.WellFormed) (ha : a < h.objects.size)
    (hb : h.Reaches a b) : ∃ o, h.objects[b]? = some o := by
  have hstep {x y : Address} {selector : Selector} (_ : x < h.objects.size)
      (hy : h.child? x selector = some y) : y < h.objects.size := by
    obtain ⟨o, hx, hchild⟩ := Option.bind_eq_some_iff.mp hy
    exact hwf.parts hx y (Content.mem_parts_iff.mpr ⟨selector, hchild⟩)
  have hlt : b < h.objects.size := Reaches.kept (P := (· < h.objects.size)) hstep ha hb
  exact ⟨_, Array.getElem?_eq_getElem hlt⟩

theorem getElem?_modify_eq_some {f : Content → Content} (hb : u.objects[b]? = some o)
    (hf : a = b → f o = o) : (u.objects.modify a f)[b]? = some o := by
  rw [Array.getElem?_modify, hb]
  split
  · rename_i heq
    rw [Option.map_some, hf heq]
  · rfl

theorem getElem?_push_eq_some (hb : u.objects[b]? = some o) (o' : Content) :
    (u.objects.push o')[b]? = some o :=
  getElem?_push_eq_some_iff.mpr (.inl hb)

/-- Objects that are not written to are as they were. An atom has no fields to write
to. -/
theorem Later.getElem? (hu : h.Later pairs u) (hb : h.objects[b]? = some o)
    (hpairs : o.isCompound = true → ¬pairs b) : u.objects[b]? = some o := by
  -- The object is old, so if it is written to, then as one of `pairs`.
  have hatom {a : Address} (mem : pairs a ∨ h.objects.size ≤ a) (heq : a = b) :
      o.isCompound = false := by
    subst heq
    have hmem := mem.resolve_right (Nat.not_le.mpr (lt_of_getElem? hb))
    exact Bool.eq_false_iff.mpr fun ho => hpairs ho hmem
  induction hu with
  | now => exact hb
  | setCar v _ mem ih =>
      exact getElem?_modify_eq_some ih fun heq => Content.withCar_of_not_isCompound (hatom mem heq)
  | setCdr v _ mem ih =>
      exact getElem?_modify_eq_some ih fun heq => Content.withCdr_of_not_isCompound (hatom mem heq)
  | add o' _ ih => exact getElem?_push_eq_some ih o'
  | intern name _ ih =>
      rw [Heap.intern]
      split
      · exact ih
      · exact getElem?_push_eq_some ih _

/-- An object none of whose pairs is written to is as before. -/
theorem Later.asBefore (hu : h.Later pairs u) (hwf : h.WellFormed) (ha : a < h.objects.size)
    (hpairs : ∀ b o, h.Reaches a b → h.objects[b]? = some o → o.isCompound = true → ¬pairs b) :
    h.AsBefore u a := by
  refine asBefore_of_reaches fun b hb => ?_
  obtain ⟨o, ho⟩ := hwf.exists_of_reaches ha hb
  rw [hu.getElem? ho (hpairs b o hb ho), ho]

end Heap

end MiniScheme
