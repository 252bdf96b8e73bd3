import Mathlib.Data.List.Perm.Subperm
import MiniScheme.Heap.Copy
import MiniScheme.Proofs.FreshTrees
import MiniScheme.Proofs.WellFormedHeaps

/-!
# `MiniScheme.Proofs.MemoCopies`: what the memo of a deep copy says

The copier rebuilds pairs and vectors and leaves atoms as they are, since all
classes of atoms have a copy method (`copyMethod?_eq_none_iff`). So at each moment
the memo has entries for pairs and vectors only, and the objects made so far are
the copies that it names, one for each entry (`Copying.Sound`).

Copies under way are in the memo, but their fields are not set. So the statement
about one call is about what it adds (`Copied`): entries that were there stay,
objects that were there are not written to, and a new entry names a finished copy
(`Complete`), whose fields are the images of the fields of the original. Calls one
after the other add up (`Copied.cons`), and a call on a pair or vector is the entry
and the calls on its parts (`Copied.enter`), as `copied_copyFrom` needs them for its
induction.

Each entry takes up one of the objects that there are, which bounds the depth
(`exists_copyFrom`).
-/

set_option autoImplicit false

namespace MiniScheme

theorem Except.map_eq_ok {α β ε : Type} {f : α → β} {x : Except ε α} {b : β}
    (hx : x.map f = .ok b) : ∃ a, x = .ok a ∧ f a = b := by
  cases x <;> cases hx
  exact ⟨_, rfl, rfl⟩

theorem Except.map_eq_error {α β ε : Type} {f : α → β} {x : Except ε α} {e : ε}
    (hx : x.map f = .error e) : x = .error e := by
  cases x <;> cases hx
  rfl

/-! ### Fields and paths -/

namespace Content

variable {o : Content} {p : Address}

/-- The part that one step leads to. -/
def child? : Content → Selector → Option Address
  | .pair (some (car, _)), .car => some car
  | .pair (some (_, cdr)), .cdr => some cdr
  | .vector items, .item i => items[i]?
  | _, _ => none

theorem mem_parts_iff : p ∈ o.parts ↔ ∃ selector, o.child? selector = some p := by
  constructor
  · intro hp
    match o, hp with
    | .pair (some (car, cdr)), hp =>
        rcases List.mem_pair.mp hp with rfl | rfl
        · exact ⟨.car, rfl⟩
        · exact ⟨.cdr, rfl⟩
    | .vector items, hp =>
        obtain ⟨i, hi⟩ := List.getElem?_of_mem hp
        exact ⟨.item i, hi⟩
  · rintro ⟨selector, hp⟩
    match o, selector, hp with
    | .pair (some (car, cdr)), .car, rfl => exact List.mem_cons_self
    | .pair (some (car, cdr)), .cdr, rfl => exact List.mem_cons_of_mem _ List.mem_cons_self
    | .vector items, .item i, hp => exact List.mem_of_getElem? hp

/-- Steps lead to the fields that were set. -/
theorem child?_refill (f : Address → Address) (selector : Selector) :
    (o.refill (o.parts.map f)).child? selector = (o.child? selector).map f := by
  match o, selector with
  | .pair none, _ => rfl
  | .pair (some (_, _)), .car | .pair (some (_, _)), .cdr => rfl
  | .pair (some (_, _)), .item _ => rfl
  | .vector items, .item i => exact List.getElem?_map
  | .vector _, .car | .vector _, .cdr => rfl
  | .number _, _ | .text _, _ | .symbol _, _ | .boolean _, _ => rfl
  | .emptyList, _ | .emptySequence, _ => rfl

theorem child?_eq_none (ho : o.isCompound = false) (selector : Selector) :
    o.child? selector = none := by
  cases o <;> first | rfl | cases ho

/-- Exactly the classes of pairs and vectors have no copy method. -/
theorem copyMethod?_kind : o.kind.copyMethod? = if o.isCompound then none else some .itself := by
  cases o <;> rfl

end Content

namespace Heap

/-- The part of an object that one step leads to. -/
def child? (h : Heap) (a : Address) (selector : Selector) : Option Address :=
  h.objects[a]?.bind (·.child? selector)

/-- The object that a path leads to. -/
def follow (h : Heap) : Address → List Selector → Option Address
  | a, [] => some a
  | a, selector :: path => (h.child? a selector).bind (h.follow · path)

/-- Some path leads to the object. -/
def Reaches (h : Heap) (a b : Address) : Prop := ∃ path, h.follow a path = some b

theorem Reaches.refl (h : Heap) (a : Address) : h.Reaches a a := ⟨[], rfl⟩

theorem Reaches.of_part {h : Heap} {a b p : Address} {o : Content} (ha : h.objects[a]? = some o)
    (hp : p ∈ o.parts) (hb : h.Reaches p b) : h.Reaches a b := by
  obtain ⟨selector, hchild⟩ := Content.mem_parts_iff.mp hp
  obtain ⟨path, hpath⟩ := hb
  exact ⟨selector :: path, by simp [follow, child?, ha, hchild, hpath]⟩

/-- What each step keeps holds of all that an object leads to. -/
theorem Reaches.kept {h : Heap} {P : Address → Prop} {a b : Address}
    (hstep : ∀ {x y : Address} {selector : Selector}, P x → h.child? x selector = some y → P y)
    (ha : P a) (hb : h.Reaches a b) : P b := by
  obtain ⟨path, hpath⟩ := hb
  induction path generalizing a with
  | nil => exact Option.some.inj hpath ▸ ha
  | cons selector path ih =>
      obtain ⟨x, hx, hrest⟩ := Option.bind_eq_some_iff.mp hpath
      exact ih (hstep ha hx) hrest

end Heap

namespace Copying

variable {h : Heap} {k k' k₁ k₂ : Copying} {a b c p : Address} {o : Content}
  {roots results : List Address}

/-! ### The steps of a copy -/

/-- Where the copy of an object is; an atom is its own. -/
def image (k : Copying) (a : Address) : Address := (k.memo.lookup a).getD a

theorem image_of_lookup (hc : k.memo.lookup a = some c) : k.image a = c := by
  rw [image, hc, Option.getD_some]

theorem image_of_lookup_eq_none (ha : k.memo.lookup a = none) : k.image a = a := by
  rw [image, ha, Option.getD_none]

theorem lookup_enter : (k.enter a o).2.memo.lookup b =
    if b = a then some k.heap.objects.size else k.memo.lookup b := by
  simp only [enter, Heap.add, List.lookup_cons]
  split <;> simp_all

theorem copyAll_cons_of_error {copy : Copier} {e : Fault} (hfirst : copy k a = .error e) :
    copyAll copy k (a :: roots) = .error e := by
  rw [copyAll, hfirst]
  rfl

theorem copyAll_cons_of_ok {copy : Copier} (hfirst : copy k a = .ok (c, k₁)) :
    copyAll copy k (a :: roots) =
      (copyAll copy k₁ roots).map fun (rest, k₂) => (c :: rest, k₂) := by
  rw [copyAll, hfirst]
  cases hrest : copyAll copy k₁ roots <;> simp [bind, Except.bind, Except.map, hrest]

/-- An object that was copied is not copied again. -/
theorem copyFrom_of_lookup {methods : Kind → Option Copier} (depth : Nat)
    (hc : k.memo.lookup a = some c) : copyFrom methods (depth + 1) k a = .ok (c, k) := by
  rw [copyFrom, hc]

/-- An object whose class says so is its own copy. -/
theorem copyFrom_of_itself {methods : Kind → Option Copier} (depth : Nat)
    (hfresh : k.memo.lookup a = none) (ha : k.heap.objects[a]? = some o)
    (hmethod : methods o.kind = some .itself) : copyFrom methods (depth + 1) k a = .ok (a, k) := by
  simp only [copyFrom, hfresh, ha, hmethod, Copier.itself, bind, Except.bind, remember, if_true]

/-- A pair or vector is entered in the memo, its parts are copied, and then they
are set. -/
theorem copyFrom_of_isCompound (depth : Nat) (hfresh : k.memo.lookup a = none)
    (ha : k.heap.objects[a]? = some o) (ho : o.isCompound = true) :
    copyFrom Kind.copyMethod? (depth + 1) k a =
      (copyAll (copyFrom Kind.copyMethod? depth) (k.enter a o.blank).2 o.parts).map
        fun (fields, k') => (k.heap.objects.size,
          k'.fill k.heap.objects.size (o.refill fields)) := by
  have hmethod : o.kind.copyMethod? = none := by rw [Content.copyMethod?_kind, if_pos ho]
  simp only [copyFrom, hfresh, ha, hmethod]
  cases o <;> cases ho <;> simp only [rebuild] <;>
    cases copyAll (copyFrom Kind.copyMethod? depth) (k.enter a _).2 _ <;> rfl

/-! ### What the memo says -/

/-- The objects of the first heap are as they were, and the others are the copies
that the memo names, one for each entry. -/
structure Sound (h : Heap) (k : Copying) : Prop where
  size : k.heap.objects.size = h.objects.size + k.memo.length
  old : ∀ {a : Address}, a < h.objects.size → k.heap.objects[a]? = h.objects[a]?
  symbols : k.heap.symbols = h.symbols
  keys : ∀ {a : Address}, a ∈ k.memo.map Prod.fst →
    ∃ o, h.objects[a]? = some o ∧ o.isCompound = true
  nodup : (k.memo.map Prod.fst).Nodup
  new : ∀ {a c : Address}, k.memo.lookup a = some c →
    h.objects.size ≤ c ∧ c < k.heap.objects.size
  inj : ∀ {a b c : Address}, k.memo.lookup a = some c → k.memo.lookup b = some c → a = b
  all : ∀ {c : Address}, h.objects.size ≤ c → c < k.heap.objects.size →
    ∃ a, k.memo.lookup a = some c

/-- The object is there, and it is an atom or has a copy. -/
def Known (h : Heap) (k : Copying) (a : Address) : Prop :=
  ∃ o, h.objects[a]? = some o ∧ (o.isCompound = true → ∃ c, k.memo.lookup a = some c)

/-- The copy has its fields, and they are the images of the fields of the
original. -/
def Complete (h : Heap) (k : Copying) (a c : Address) : Prop :=
  ∃ o, h.objects[a]? = some o ∧ k.heap.objects[c]? = some (o.refill (o.parts.map k.image)) ∧
    ∀ p ∈ o.parts, Known h k p

theorem mem_keys_of_lookup (hc : k.memo.lookup a = some c) : a ∈ k.memo.map Prod.fst := by
  obtain ⟨before, after, hmemo, -⟩ := List.lookup_eq_some_iff.mp hc
  simp [hmemo]

namespace Sound

theorem start (h : Heap) : Sound h ⟨h, []⟩ where
  size := rfl
  old _ := rfl
  symbols := rfl
  keys := nofun
  nodup := List.nodup_nil
  new := nofun
  inj := nofun
  all hge hlt := absurd hlt (Nat.not_lt.mpr hge)

/-- There are no more entries than objects. -/
theorem length_memo_le (hk : Sound h k) : k.memo.length ≤ h.objects.size := by
  have hsub : k.memo.map Prod.fst ⊆ List.range h.objects.size := fun a ha => by
    obtain ⟨o, ho, -⟩ := hk.keys ha
    exact List.mem_range.mpr (Heap.lt_of_getElem? ho)
  simpa using (hk.nodup.subperm hsub).length_le

/-- Atoms are not in the memo. -/
theorem lookup_eq_none (hk : Sound h k) (ha : h.objects[a]? = some o) (ho : o.isCompound = false) :
    k.memo.lookup a = none := by
  cases hc : k.memo.lookup a with
  | none => rfl
  | some c =>
      obtain ⟨o', ha', ho'⟩ := hk.keys (mem_keys_of_lookup hc)
      obtain rfl := Option.some.inj (ha.symm.trans ha')
      simp [ho] at ho'

/-- The image of an atom is the atom. -/
theorem image_eq (hk : Sound h k) (ha : h.objects[a]? = some o) (ho : o.isCompound = false) :
    k.image a = a := image_of_lookup_eq_none (hk.lookup_eq_none ha ho)

/-- An original that is found in the heap of the copier was there before. -/
theorem getElem? (hk : Sound h k) (ha : h.objects[a]? = some o) : k.heap.objects[a]? = some o :=
  (hk.old (Heap.lt_of_getElem? ha)).trans ha

theorem enter (hk : Sound h k) (hfresh : k.memo.lookup a = none) (ha : h.objects[a]? = some o)
    (ho : o.isCompound = true) (o' : Content) : Sound h (k.enter a o').2 where
  size := by
    have := hk.size
    simp only [Copying.enter, Heap.add, Array.size_push, List.length_cons]
    omega
  old hlt := by
    have hlt' := hk.size ▸ Nat.lt_add_right k.memo.length hlt
    exact (Array.getElem?_push_lt hlt').trans
      ((Array.getElem?_eq_getElem hlt').symm.trans (hk.old hlt))
  symbols := hk.symbols
  keys hmem := by
    rcases List.mem_cons.mp hmem with rfl | hmem
    · exact ⟨o, ha, ho⟩
    · exact hk.keys hmem
  nodup := by
    refine List.nodup_cons.mpr ⟨fun hmem => ?_, hk.nodup⟩
    obtain ⟨⟨_, c⟩, hentry, rfl⟩ := List.mem_map.mp hmem
    have hnone := List.lookup_eq_none_iff.mp hfresh _ hentry
    simp at hnone
  new hc := by
    rw [lookup_enter] at hc
    simp only [Copying.enter, Heap.add, Array.size_push]
    split at hc
    · cases hc
      exact ⟨hk.size ▸ Nat.le_add_right .., Nat.lt_succ_self _⟩
    · exact (hk.new hc).imp_right Nat.lt_succ_of_lt
  inj hc hc' := by
    rw [lookup_enter] at hc hc'
    split at hc <;> split at hc'
    · simp_all
    · cases hc
      exact absurd (hk.new hc').2 (Nat.lt_irrefl _)
    · cases hc'
      exact absurd (hk.new hc).2 (Nat.lt_irrefl _)
    · exact hk.inj hc hc'
  all {c} hge hlt := by
    simp only [Copying.enter, Heap.add, Array.size_push] at hlt
    simp only [lookup_enter]
    rcases Nat.lt_succ_iff_lt_or_eq.mp hlt with hlt | rfl
    · obtain ⟨b, hb⟩ := hk.all hge hlt
      have hne : b ≠ a := by
        rintro rfl
        rw [hfresh] at hb
        cases hb
      exact ⟨b, by rw [if_neg hne, hb]⟩
    · exact ⟨a, if_pos rfl⟩

/-- A copy may be written to. -/
theorem fill (hk : Sound h k) (hc : h.objects.size ≤ c) (o : Content) : Sound h (k.fill c o) where
  size := by
    rw [Copying.fill, Heap.fill, Array.size_setIfInBounds]
    exact hk.size
  old {a} hlt := by
    have hne : c ≠ a := Nat.ne_of_gt (Nat.lt_of_lt_of_le hlt hc)
    exact (Array.getElem?_setIfInBounds_ne hne).trans (hk.old hlt)
  symbols := hk.symbols
  keys := hk.keys
  nodup := hk.nodup
  new hlookup := by
    rw [Copying.fill, Heap.fill, Array.size_setIfInBounds]
    exact hk.new hlookup
  inj := hk.inj
  all hge hlt := by
    rw [Copying.fill, Heap.fill, Array.size_setIfInBounds] at hlt
    exact hk.all hge hlt

end Sound

/-! ### What a call adds to it -/

/-- A write to one copy leaves the others finished. -/
theorem Complete.fill {c' : Address} (hcomplete : Complete h k a c) (hne : c ≠ c') (o : Content) :
    Complete h (k.fill c' o) a c := by
  obtain ⟨original, ha, hc, hparts⟩ := hcomplete
  exact ⟨original, ha, (Array.getElem?_setIfInBounds_ne hne.symm).trans hc, hparts⟩

theorem Known.mono (hknown : Known h k p)
    (hkept : ∀ {a c}, k.memo.lookup a = some c → k'.memo.lookup a = some c) : Known h k' p := by
  obtain ⟨o, hp, hcopied⟩ := hknown
  exact ⟨o, hp, fun ho => (hcopied ho).imp fun _ => hkept⟩

/-- The image of what is known stays what it is. -/
theorem Known.image_eq (hknown : Known h k p) (hk : Sound h k) (hk' : Sound h k')
    (hkept : ∀ {a c}, k.memo.lookup a = some c → k'.memo.lookup a = some c) :
    k'.image p = k.image p := by
  obtain ⟨o, hp, hcopied⟩ := hknown
  cases ho : o.isCompound with
  | true =>
      obtain ⟨c, hc⟩ := hcopied ho
      rw [image_of_lookup hc, image_of_lookup (hkept hc)]
  | false => rw [hk.image_eq hp ho, hk'.image_eq hp ho]

/-- What calls on the objects `roots`, with these results, add to a copy. -/
structure Copied (h : Heap) (roots : List Address) (k : Copying) (results : List Address)
    (k' : Copying) : Prop where
  sound : Sound h k'
  kept : ∀ {a c : Address}, k.memo.lookup a = some c → k'.memo.lookup a = some c
  frame : ∀ {c : Address}, c < k.heap.objects.size → k'.heap.objects[c]? = k.heap.objects[c]?
  known : ∀ a ∈ roots, Known h k' a
  results_eq : results = roots.map k'.image
  new : ∀ {a c : Address}, k'.memo.lookup a = some c → k.memo.lookup a = some c ∨
    Complete h k' a c ∧ ∃ root ∈ roots, h.Reaches root a

namespace Copied

theorem nil (hk : Sound h k) : Copied h [] k [] k :=
  ⟨hk, id, fun _ => rfl, nofun, rfl, .inl⟩

/-- What is known has its image for its copy, and adds nothing. -/
theorem of_known (hk : Sound h k) (hknown : Known h k a) : Copied h [a] k [k.image a] k :=
  ⟨hk, id, fun _ => rfl, by simpa using hknown, rfl, .inl⟩

/-- A finished copy is not written to again. -/
theorem complete (hcopied : Copied h roots k results k') (hk : Sound h k)
    (hcomplete : Complete h k a c) : Complete h k' a c := by
  obtain ⟨o, ha, hc, hparts⟩ := hcomplete
  refine ⟨o, ha, ?_, fun p hp => (hparts p hp).mono hcopied.kept⟩
  have himages : o.parts.map k'.image = o.parts.map k.image :=
    List.map_congr_left fun p hp => (hparts p hp).image_eq hk hcopied.sound hcopied.kept
  rw [hcopied.frame (Heap.lt_of_getElem? hc), hc, himages]

/-- No entry is lost. -/
theorem length_memo_le (hcopied : Copied h roots k results k') (hk : Sound h k) :
    k.memo.length ≤ k'.memo.length := by
  have hsize : k.heap.objects.size ≤ k'.heap.objects.size := by
    refine Nat.le_of_not_lt fun hlt => ?_
    have hnone := (hcopied.frame hlt).symm.trans (Array.getElem?_eq_none (Nat.le_refl _))
    exact Nat.not_le.mpr hlt (Array.getElem?_eq_none_iff.mp hnone)
  have := hk.size
  have := hcopied.sound.size
  omega

theorem cons (hfirst : Copied h [a] k [c] k₁)
    (hrest : Copied h roots k₁ results k₂) : Copied h (a :: roots) k (c :: results) k₂ where
  sound := hrest.sound
  kept hc := hrest.kept (hfirst.kept hc)
  frame {c'} hlt := by
    have hlt₁ : c' < k₁.heap.objects.size :=
      Heap.lt_of_getElem? ((hfirst.frame hlt).trans (Array.getElem?_eq_getElem hlt))
    rw [hrest.frame hlt₁, hfirst.frame hlt]
  known b hb := by
    rcases List.mem_cons.mp hb with rfl | hb
    · exact (hfirst.known b List.mem_cons_self).mono hrest.kept
    · exact hrest.known b hb
  results_eq := by
    have hknown := hfirst.known a List.mem_cons_self
    have hc : [c] = [k₁.image a] := hfirst.results_eq
    rw [List.map_cons, hknown.image_eq hfirst.sound hrest.sound hrest.kept, ← hrest.results_eq,
      List.cons.inj hc |>.1]
  new hc := by
    -- What the first call finished is not written to by those after it.
    rcases hrest.new hc with hmid | ⟨hcomplete, root, hroot, hreaches⟩
    · refine (hfirst.new hmid).imp_right fun ⟨hcomplete, root, hroot, hreaches⟩ => ⟨?_, ?_⟩
      · exact hrest.complete hfirst.sound hcomplete
      · exact ⟨root, List.mem_cons.mpr (.inl (List.mem_singleton.mp hroot)), hreaches⟩
    · exact .inr ⟨hcomplete, root, List.mem_cons_of_mem a hroot, hreaches⟩

/-- A new entry, then what the parts add, and then the fields are set. -/
theorem enter (hk : Sound h k) (hfresh : k.memo.lookup a = none) (ha : h.objects[a]? = some o)
    (ho : o.isCompound = true) (hparts : Copied h o.parts (k.enter a o.blank).2 results k₂) :
    Copied h [a] k [k.heap.objects.size]
      (k₂.fill k.heap.objects.size (o.refill results)) := by
  have hentered := hk.enter hfresh ha ho o.blank
  have hsize : h.objects.size ≤ k.heap.objects.size := hk.size ▸ Nat.le_add_right ..
  have hlookup : k₂.memo.lookup a = some k.heap.objects.size :=
    hparts.kept (by rw [lookup_enter, if_pos rfl])
  have hkept {b c : Address} (hc : k.memo.lookup b = some c) : k₂.memo.lookup b = some c := by
    have hne : b ≠ a := by
      rintro rfl
      rw [hfresh] at hc
      cases hc
    exact hparts.kept (by rw [lookup_enter, if_neg hne, hc])
  exact {
    sound := hparts.sound.fill hsize _
    kept := hkept
    frame := fun {c} hlt => by
      have hne : k.heap.objects.size ≠ c := Nat.ne_of_gt hlt
      refine (Array.getElem?_setIfInBounds_ne hne).trans ((hparts.frame ?_).trans ?_)
      · simp only [Copying.enter, Heap.add, Array.size_push]
        exact Nat.lt_succ_of_lt hlt
      · exact (Array.getElem?_push_lt hlt).trans (Array.getElem?_eq_getElem hlt).symm
    known := fun b hb => by
      obtain rfl := List.mem_singleton.mp hb
      exact ⟨o, ha, fun _ => ⟨_, hlookup⟩⟩
    results_eq := by
      rw [List.map_singleton]
      exact congrArg (fun c => [c]) (image_of_lookup (k := k₂) hlookup).symm
    new := fun {b c} hc => by
      -- The entry for the object is finished by the fields that are set last. All others
      -- come from the parts, and what is set does not touch their copies.
      by_cases hb : b = a
      · subst hb
        obtain rfl := Option.some.inj (hlookup.symm.trans hc)
        refine .inr ⟨⟨o, ha, ?_, hparts.known⟩, b, List.mem_cons_self, .refl h b⟩
        rw [hparts.results_eq]
        exact Array.getElem?_setIfInBounds_self_of_lt (hparts.sound.new hlookup).2
      · have hne : c ≠ k.heap.objects.size := fun heq => hb (hparts.sound.inj hc (heq ▸ hlookup))
        rcases hparts.new hc with hold | ⟨hcomplete, root, hroot, hreaches⟩
        · rw [lookup_enter, if_neg hb] at hold
          exact .inl hold
        · exact .inr ⟨hcomplete.fill hne _, a, List.mem_cons_self, hreaches.of_part ha hroot⟩ }

end Copied

/-- A call is on a pair or vector that is new to the memo, or adds nothing. -/
theorem copyFrom_cases (k : Copying) (a : Address) (depth : Nat) :
    (∀ o, k.heap.objects[a]? = some o → o.isCompound = true → ∃ c, k.memo.lookup a = some c) ∧
      copyFrom Kind.copyMethod? (depth + 1) k a = .ok (k.image a, k) ∨
    ∃ o, k.heap.objects[a]? = some o ∧ o.isCompound = true ∧ k.memo.lookup a = none ∧
      copyFrom Kind.copyMethod? (depth + 1) k a =
        (copyAll (copyFrom Kind.copyMethod? depth) (k.enter a o.blank).2 o.parts).map
          fun (fields, k') => (k.heap.objects.size,
            k'.fill k.heap.objects.size (o.refill fields)) := by
  cases hlookup : k.memo.lookup a with
  | some c =>
      refine .inl ⟨fun _ _ _ => ⟨c, rfl⟩, ?_⟩
      rw [copyFrom_of_lookup depth hlookup, image_of_lookup hlookup]
  | none =>
      rw [image_of_lookup_eq_none hlookup]
      cases ha : k.heap.objects[a]? with
      | none => exact .inl ⟨nofun, by simp only [copyFrom, hlookup, ha]⟩
      | some o =>
          cases ho : o.isCompound with
          | false =>
              have hmethod : o.kind.copyMethod? = some .itself := by
                rw [Content.copyMethod?_kind, if_neg (by simp [ho])]
              refine .inl ⟨fun o' ho' hcompound => ?_, copyFrom_of_itself depth hlookup ha hmethod⟩
              obtain rfl := Option.some.inj ho'
              rw [ho] at hcompound
              cases hcompound
          | true => exact .inr ⟨o, rfl, ho, rfl, copyFrom_of_isCompound depth hlookup ha ho⟩

/-- A call on something known adds nothing. Any other is a call on a pair or vector
that is new to the memo. -/
theorem copyFrom_succ (hk : Sound h k) (ha : h.objects[a]? = some o) (depth : Nat) :
    Known h k a ∧ copyFrom Kind.copyMethod? (depth + 1) k a = .ok (k.image a, k) ∨
    k.memo.lookup a = none ∧ o.isCompound = true ∧
      copyFrom Kind.copyMethod? (depth + 1) k a =
        (copyAll (copyFrom Kind.copyMethod? depth) (k.enter a o.blank).2 o.parts).map
          fun (fields, k') => (k.heap.objects.size,
            k'.fill k.heap.objects.size (o.refill fields)) := by
  rcases copyFrom_cases k a depth with ⟨hcopied, hcall⟩ | ⟨o', ha', ho, hfresh, hcall⟩
  · exact .inl ⟨⟨o, ha, hcopied o (hk.getElem? ha)⟩, hcall⟩
  · obtain rfl := Option.some.inj ((hk.getElem? ha).symm.trans ha')
    exact .inr ⟨hfresh, ho, hcall⟩

/-- Calls one after the other, of which each one adds what it should. -/
theorem copied_copyAll {copy : Copier}
    (hcopy : ∀ {k k' : Copying} {a c : Address}, Sound h k → a < h.objects.size →
      copy k a = .ok (c, k') → Copied h [a] k [c] k') (roots : List Address) :
    ∀ {k k' : Copying} {results : List Address}, Sound h k →
      (∀ a ∈ roots, a < h.objects.size) → copyAll copy k roots = .ok (results, k') →
      Copied h roots k results k' := by
  induction roots with
  | nil =>
      intro k k' results hk _ heq
      cases heq
      exact .nil hk
  | cons a roots ih =>
      intro k k' results hk hroots heq
      obtain ⟨ha, hrest⟩ := List.forall_mem_cons.mp hroots
      cases hfirst : copy k a with
      | error e =>
          rw [copyAll_cons_of_error hfirst] at heq
          cases heq
      | ok first =>
          rw [copyAll_cons_of_ok hfirst] at heq
          obtain ⟨⟨rest, k₂⟩, hcopies, hresults⟩ := Except.map_eq_ok heq
          cases hresults
          have hcopied := hcopy hk ha hfirst
          exact hcopied.cons (ih hcopied.sound hrest hcopies)

/-- What a call adds. -/
theorem copied_copyFrom (hwf : h.WellFormed) (depth : Nat) : ∀ {k k' : Copying} {a c : Address},
    Sound h k → a < h.objects.size → copyFrom Kind.copyMethod? depth k a = .ok (c, k') →
    Copied h [a] k [c] k' := by
  induction depth with
  | zero => exact fun _ _ => nofun
  | succ depth ih =>
      intro k k' a c hk hlt heq
      have ha := Array.getElem?_eq_getElem hlt
      rcases copyFrom_succ hk ha depth with ⟨hknown, hcall⟩ | ⟨hfresh, ho, hcall⟩
      · rw [hcall] at heq
        cases heq
        exact .of_known hk hknown
      · rw [hcall] at heq
        obtain ⟨⟨results, k₂⟩, hparts, hresult⟩ := Except.map_eq_ok heq
        cases hresult
        -- The entry is made before the calls on the parts, which may lead back to it.
        have hentered := hk.enter hfresh ha ho h.objects[a].blank
        exact .enter hk hfresh ha ho (copied_copyAll ih _ hentered (hwf.parts ha) hparts)

/-! ### The copy ends -/

theorem copyAll_eq_error {copy : Copier} {e : Fault} (roots : List Address) :
    ∀ {k : Copying}, copyAll copy k roots = .error e → ∃ k' a, copy k' a = .error e := by
  induction roots with
  | nil => exact nofun
  | cons a roots ih =>
      intro k heq
      cases hfirst : copy k a with
      | error e' =>
          rw [copyAll_cons_of_error hfirst] at heq
          cases heq
          exact ⟨k, a, hfirst⟩
      | ok first =>
          rw [copyAll_cons_of_ok hfirst] at heq
          exact ih (Except.map_eq_error heq)

/-- Nesting is the only fault. -/
theorem copyFrom_eq_error (depth : Nat) : ∀ {k : Copying} {a : Address} {e : Fault},
    copyFrom Kind.copyMethod? depth k a = .error e → e = .tooDeep := by
  induction depth with
  | zero =>
      intro k a e heq
      cases heq
      rfl
  | succ depth ih =>
      intro k a e heq
      rcases copyFrom_cases k a depth with ⟨-, hcall⟩ | ⟨o, -, -, -, hcall⟩
      · rw [hcall] at heq
        cases heq
      · rw [hcall] at heq
        obtain ⟨k', b, hfield⟩ := copyAll_eq_error _ (Except.map_eq_error heq)
        exact ih hfield

/-- Calls one after the other, of which each one leaves enough levels. -/
theorem exists_copyAll (copy : Copier) {depth : Nat}
    (hcopy : ∀ {k : Copying} {a : Address}, Sound h k → a < h.objects.size →
      h.objects.size < depth + k.memo.length →
      ∃ c k', copy k a = .ok (c, k') ∧ Copied h [a] k [c] k') (roots : List Address) :
    ∀ {k : Copying}, Sound h k → (∀ a ∈ roots, a < h.objects.size) →
      h.objects.size < depth + k.memo.length →
      ∃ made, copyAll copy k roots = .ok made := by
  induction roots with
  | nil => exact fun _ _ _ => ⟨_, rfl⟩
  | cons a roots ih =>
      intro k hk hroots hlevels
      obtain ⟨ha, hrest⟩ := List.forall_mem_cons.mp hroots
      obtain ⟨c, k₁, hfirst, hcopied⟩ := hcopy hk ha hlevels
      have hlevels₁ : h.objects.size < depth + k₁.memo.length :=
        Nat.lt_of_lt_of_le hlevels (Nat.add_le_add_left (hcopied.length_memo_le hk) depth)
      obtain ⟨made, hmade⟩ := ih hcopied.sound hrest hlevels₁
      exact ⟨_, by rw [copyAll_cons_of_ok hfirst, hmade]; rfl⟩

/-- A copy ends if there are more levels than objects without a copy. -/
theorem exists_copyFrom (hwf : h.WellFormed) (depth : Nat) : ∀ {k : Copying} {a : Address},
    Sound h k → a < h.objects.size → h.objects.size < depth + k.memo.length →
    ∃ c k', copyFrom Kind.copyMethod? depth k a = .ok (c, k') := by
  induction depth with
  | zero =>
      -- No level is left, so each object would have an entry, and one more.
      intro k a hk _ hlevels
      have := hk.length_memo_le
      omega
  | succ depth ih =>
      intro k a hk hlt hlevels
      have ha := Array.getElem?_eq_getElem hlt
      rcases copyFrom_succ hk ha depth with ⟨-, hcall⟩ | ⟨hfresh, ho, hcall⟩
      · exact ⟨_, _, hcall⟩
      · have hentered := hk.enter hfresh ha ho h.objects[a].blank
        have hlevels' : h.objects.size < depth + (k.enter a h.objects[a].blank).2.memo.length := by
          have : (k.enter a h.objects[a].blank).2.memo.length = k.memo.length + 1 := rfl
          omega
        have hcopy {k : Copying} {a : Address} (hk : Sound h k) (hlt : a < h.objects.size)
            (hlevels : h.objects.size < depth + k.memo.length) :
            ∃ c k', copyFrom Kind.copyMethod? depth k a = .ok (c, k') ∧ Copied h [a] k [c] k' := by
          obtain ⟨c, k', heq⟩ := ih hk hlt hlevels
          exact ⟨c, k', heq, copied_copyFrom hwf depth hk hlt heq⟩
        obtain ⟨⟨fields, k₂⟩, hparts⟩ :=
          exists_copyAll _ hcopy _ hentered (hwf.parts ha) hlevels'
        exact ⟨_, _, by rw [hcall, hparts]; rfl⟩

/-! ### Without a copy method -/

/-- Without the method of its class, a constant has a copy that looks the same and
is another object. -/
theorem copyFrom_of_copyMethod?_eq_none {methods : Kind → Option Copier} (depth : Nat)
    (hfresh : k.memo.lookup a = none) (ha : k.heap.objects[a]? = some o)
    (ho : o.home?.isSome) (hmethod : methods o.kind = none) :
    ∃ k', copyFrom methods (depth + 1) k a = .ok (k.heap.objects.size, k') ∧
      k'.heap.objects[k.heap.objects.size]? = some o ∧ k.heap.objects.size ≠ a := by
  have hne : k.heap.objects.size ≠ a := Nat.ne_of_gt (Heap.lt_of_getElem? ha)
  cases o <;> cases ho <;> simp only [copyFrom, hfresh, ha, hmethod, rebuild]
  all_goals exact ⟨_, rfl, by simp [fill, Heap.fill, enter, Heap.add, Content.refill], hne⟩

/-- A symbol is its own copy also without the method of its class, since a name has
one symbol. -/
theorem copyFrom_symbol_of_copyMethod?_eq_none {methods : Kind → Option Copier} {name : String}
    (hwf : k.heap.WellFormed) (depth : Nat) (hfresh : k.memo.lookup a = none)
    (ha : k.heap.objects[a]? = some (.symbol name)) (hmethod : methods .symbol = none) :
    copyFrom methods (depth + 1) k a = .ok (a, k) := by
  simp only [copyFrom, hfresh, ha, Content.kind, hmethod, rebuild, hwf.intern_eq ha, remember,
    if_true]

end Copying

end MiniScheme
