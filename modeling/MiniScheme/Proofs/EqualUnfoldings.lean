import MiniScheme.Proofs.Comparing
import MiniScheme.Proofs.VectorData

/-!
# `MiniScheme.Proofs.EqualUnfoldings`: equality by structure is equality of unfoldings

A pair unfolds to an infinite tree when it lies on a cycle. Two values have the
same unfolding (`Store.SameUnfolding`) if every path of fields leads to a pair
from both or from neither, and to leaves that are equal by themselves
(`Store.SameLeaf`): numbers that are worth the same, strings of one text,
vectors whose elements have the same unfoldings, or one object. Nothing in
this definition speaks of comparisons that have begun.

A comparison takes two pairs as equal that are met again. `affirms_equalFrom`
says why it may: by the time that the answer is yes, all pairs that have begun
had their fields compared, so together they agree step by step
(`Store.Agree`), and paths cannot tell them apart. An answer of no has found
two leaves that differ, at the end of the same path
(`denies_equalFrom`).

`equal_decides_unfoldings` is the main result. Elements of vectors that are
one object count as equal unseen. This shows for a NaN only, so the relation
takes the shortcut as a parameter: with no shortcut at all the result is the
same, as long as no vector holds a NaN. A text has no word for a NaN, and
vectors hold what a text can hold (`MiniScheme.Proofs.VectorData`), so in a run
of source texts the shortcut never shows.
-/

set_option autoImplicit false

namespace MiniScheme

/-! ### Numbers by value -/

/-- A count of the least positive binary64 number, or an infinity. -/
inductive Worth where
  | finite (units : Int)
  | infinite (negative : Bool)
deriving DecidableEq

/-- The exact value of a number; a NaN has none. -/
def Number.worth? : Number → Option Worth
  | .int n => some (.finite (n * Binary64.one))
  | .real (.nan _) => none
  | .real (.infinite negative) => some (.infinite negative)
  | .real (.finite negative units) => some (.finite (Binary64.signed negative units))

/-- A step from a pair to one of its fields. -/
inductive Field where
  | car
  | cdr
deriving DecidableEq

/-- What the step leads to. -/
def Cell.field (c : Cell) : Field → Value
  | .car => c.car
  | .cdr => c.cdr

namespace Store

/-- What a path of fields leads to, if every step of it starts at a pair. -/
def follow (s : Store) : List Field → Value → Option Value
  | [], v => some v
  | f :: path, v => (s.cell? v).bind fun c => s.follow path (c.field f)

/-- The path leads to a pair. -/
def LeadsToPair (s : Store) (v : Value) (path : List Field) : Prop :=
  ∃ w c, s.follow path v = some w ∧ s.cell? w = some c

/-- The path leads to a value that is no pair. -/
def LeadsToLeaf (s : Store) (v : Value) (path : List Field) (leaf : Value) : Prop :=
  s.follow path v = some leaf ∧ s.cell? leaf = none

/-- Two values that are no pairs are equal by themselves: numbers that are worth
the same, strings of one text, vectors of one length, or one object. -/
inductive SameLeaf (s : Store) : Value → Value → Prop
  | number {v w : Value} {m n : Number} (left : v.numeric? = some m) (right : w.numeric? = some n)
      (same : m.worth? = n.worth?) (worth : m.worth? ≠ none) : SameLeaf s v w
  | text (tag tag' : Nat) (t : String) : SameLeaf s (.text tag t) (.text tag' t)
  | vector {r q : Ref} (length : (s.elements r).length = (s.elements q).length) :
      SameLeaf s (.vector r) (.vector q)
  | object {v : Value} (plain : v.numeric? = none) : SameLeaf s v v

/-- Two values have the same unfolding: every path leads to pairs or to leaves
that are equal by themselves, and the elements of such vectors have the same
unfolding again, where no shortcut goes. -/
inductive SameUnfolding (s : Store) (short : Value → Value → Prop) : Value → Value → Prop
  | intro {a b : Value}
      (pairs : ∀ path, s.LeadsToPair a path ↔ s.LeadsToPair b path)
      (leaves : ∀ path v w, s.LeadsToLeaf a path v → s.LeadsToLeaf b path w → s.SameLeaf v w)
      (elements : ∀ path r q, s.LeadsToLeaf a path (.vector r) → s.LeadsToLeaf b path (.vector q) →
        ∀ (i : Nat) (x y : Value), (s.elements r)[i]? = some x → (s.elements q)[i]? = some y →
          ¬ short x y → SameUnfolding s short x y) :
      SameUnfolding s short a b

/-- No NaN can be reached from the value. -/
def NanFree (s : Store) (v : Value) : Prop :=
  ∀ x, Relation.ReflTransGen s.Link v (.number (.real x)) → ¬ x.IsNan

variable {s : Store} {short : Value → Value → Prop} {v w : Value} {path : List Field}

theorem leadsToPair_nil : s.LeadsToPair v [] ↔ ∃ c, s.cell? v = some c := by
  simp [LeadsToPair, follow]

theorem leadsToLeaf_nil {leaf : Value} :
    s.LeadsToLeaf v [] leaf ↔ v = leaf ∧ s.cell? v = none := by
  constructor
  · rintro ⟨hfollow, hleaf⟩
    obtain rfl := Option.some.inj hfollow
    exact ⟨rfl, hleaf⟩
  · rintro ⟨rfl, hleaf⟩
    exact ⟨rfl, hleaf⟩

theorem leadsToPair_cons {c : Cell} (hv : s.cell? v = some c) (f : Field) :
    s.LeadsToPair v (f :: path) ↔ s.LeadsToPair (c.field f) path := by
  simp [LeadsToPair, follow, hv]

theorem leadsToLeaf_cons {c : Cell} (hv : s.cell? v = some c) (f : Field) {leaf : Value} :
    s.LeadsToLeaf v (f :: path) leaf ↔ s.LeadsToLeaf (c.field f) path leaf := by
  simp [LeadsToLeaf, follow, hv]

/-- A path goes on from pairs only. -/
theorem LeadsToLeaf.exists_cell {f : Field} {leaf : Value} (h : s.LeadsToLeaf v (f :: path) leaf) :
    ∃ c, s.cell? v = some c := by
  obtain ⟨c, hc, -⟩ := Option.bind_eq_some_iff.mp h.1
  exact ⟨c, hc⟩

namespace SameLeaf

protected theorem symm (h : s.SameLeaf v w) : s.SameLeaf w v := by
  cases h with
  | number left right same worth => exact .number right left same.symm (same ▸ worth)
  | text tag tag' t => exact .text tag' tag t
  | vector length => exact .vector length.symm
  | object plain => exact .object plain

protected theorem trans {u : Value} (h : s.SameLeaf v w) (k : s.SameLeaf w u) :
    s.SameLeaf v u := by
  cases h with
  | object => exact k
  | number left right same worth =>
      cases k with
      | number left' right' same' _ =>
          obtain rfl := Option.some.inj (right.symm.trans left')
          exact .number left right' (same.trans same') worth
      | text | vector => cases right
      | object plain => cases plain.symm.trans right
  | text tag tag' t =>
      cases k with
      | number left => cases left
      | text _ tag'' => exact .text tag tag'' t
      | object => exact .text tag tag' t
  | vector length =>
      cases k with
      | number left => cases left
      | vector length' => exact .vector (length.trans length')
      | object => exact .vector length

/-- Everything but a NaN is the same as itself. -/
theorem self (hv : ∀ x, v = .number (.real x) → ¬ x.IsNan) : s.SameLeaf v v := by
  cases hn : v.numeric? with
  | none => exact .object hn
  | some n =>
      refine .number hn hn rfl fun hworth => ?_
      -- Only a NaN is worth nothing, and a foreign boolean is none.
      cases v with
      | number m =>
          cases hn
          rcases n with _ | (_ | _ | _)
          · cases hworth
          · exact hv _ rfl trivial
          · cases hworth
          · cases hworth
      | foreign f =>
          cases f with
          | boolean b =>
              cases hn
              cases hworth
          | none | lengthFunction => cases hn
      | _ => cases hn

theorem length_eq {r q : Ref} (h : s.SameLeaf (.vector r) (.vector q)) :
    (s.elements r).length = (s.elements q).length := by
  cases h with
  | number left => cases left
  | vector length => exact length
  | object => rfl

theorem exists_vector {r : Ref} (h : s.SameLeaf (.vector r) w) : ∃ q, w = .vector q := by
  cases h with
  | number left => cases left
  | vector | object => exact ⟨_, rfl⟩

end SameLeaf

/-! ### Agreement step by step -/

/-- Two values agree as far as one step shows: both are pairs with related
fields, or they are equal leaves. -/
inductive Agree (s : Store) (short related : Value → Value → Prop) (v w : Value) : Prop
  | pairs {c d : Cell} (left : s.cell? v = some c) (right : s.cell? w = some d)
      (fields : ∀ f, related (c.field f) (d.field f))
  | leaves (left : s.cell? v = none) (right : s.cell? w = none) (same : s.SameLeaf v w)
      (elements : ∀ r q, v = .vector r → w = .vector q → ∀ (i : Nat) (x y : Value),
        (s.elements r)[i]? = some x → (s.elements q)[i]? = some y → ¬ short x y →
          s.SameUnfolding short x y)

namespace SameUnfolding

variable {a b : Value}

/-- The fields of pairs with the same unfolding have the same unfolding. -/
theorem field {c d : Cell} (h : s.SameUnfolding short a b) (ha : s.cell? a = some c)
    (hb : s.cell? b = some d) (f : Field) : s.SameUnfolding short (c.field f) (d.field f) := by
  cases h with
  | intro pairs leaves elements =>
      refine .intro (fun path => ?_) (fun path v w hv hw => ?_) fun path r q hv hw => ?_
      · rw [← leadsToPair_cons ha, ← leadsToPair_cons hb]
        exact pairs (f :: path)
      · exact leaves (f :: path) v w ((leadsToLeaf_cons ha f).mpr hv)
          ((leadsToLeaf_cons hb f).mpr hw)
      · exact elements (f :: path) r q ((leadsToLeaf_cons ha f).mpr hv)
          ((leadsToLeaf_cons hb f).mpr hw)

/-- Values with the same unfolding agree step by step. -/
theorem agree (h : s.SameUnfolding short a b) : s.Agree short (s.SameUnfolding short) a b := by
  have hfield := fun {c d} => h.field (c := c) (d := d)
  cases h with
  | intro pairs leaves elements =>
      have hpair := pairs []
      rw [leadsToPair_nil, leadsToPair_nil] at hpair
      cases ha : s.cell? a with
      | some c =>
          obtain ⟨d, hb⟩ := hpair.mp ⟨c, ha⟩
          exact .pairs ha hb (hfield ha hb)
      | none =>
          have hb : s.cell? b = none := by
            rw [← Option.not_isSome_iff_eq_none, Option.isSome_iff_exists, ← hpair, ha]
            simp
          refine .leaves ha hb ?_ fun r q har hbq => ?_
          · exact leaves [] a b (leadsToLeaf_nil.mpr ⟨rfl, ha⟩) (leadsToLeaf_nil.mpr ⟨rfl, hb⟩)
          · exact elements [] r q (leadsToLeaf_nil.mpr ⟨har, ha⟩) (leadsToLeaf_nil.mpr ⟨hbq, hb⟩)

/-- Where one unfolding has a leaf, so does the other. -/
theorem exists_leaf (h : s.SameUnfolding short a b) (hv : s.LeadsToLeaf a path v) :
    ∃ w, s.LeadsToLeaf b path w := by
  induction path generalizing a b with
  | nil =>
      obtain ⟨rfl, ha⟩ := leadsToLeaf_nil.mp hv
      cases h.agree with
      | pairs left => cases ha.symm.trans left
      | leaves _ right => exact ⟨b, leadsToLeaf_nil.mpr ⟨rfl, right⟩⟩
  | cons f path ih =>
      obtain ⟨c, ha⟩ := hv.exists_cell
      cases h.agree with
      | leaves left => cases left.symm.trans ha
      | pairs left right fields =>
          obtain rfl := Option.some.inj (left.symm.trans ha)
          obtain ⟨w, hw⟩ := ih (fields f) ((leadsToLeaf_cons left f).mp hv)
          exact ⟨w, (leadsToLeaf_cons right f).mpr hw⟩

/-- A shortcut that goes further only helps. -/
theorem mono {short' : Value → Value → Prop} (hshort : ∀ x y, short x y → short' x y)
    (h : s.SameUnfolding short a b) : s.SameUnfolding short' a b := by
  induction h with
  | intro pairs leaves _ ih =>
      exact .intro pairs leaves fun path r q hr hq i x y hx hy hne =>
        ih path r q hr hq i x y hx hy fun h => hne (hshort x y h)

protected theorem symm (h : s.SameUnfolding Eq a b) : s.SameUnfolding Eq b a := by
  induction h with
  | intro pairs leaves _ ih =>
      exact .intro (fun path => (pairs path).symm)
        (fun path v w hv hw => (leaves path w v hw hv).symm)
        fun path r q hr hq i x y hx hy hne => ih path q r hq hr i y x hy hx (Ne.symm hne)

protected theorem trans {c : Value} (h : s.SameUnfolding Eq a b) (k : s.SameUnfolding Eq b c) :
    s.SameUnfolding Eq a c := by
  induction h generalizing c with
  | @intro a b pairs leaves elements ih =>
      -- The middle value has a leaf where the outer ones do.
      have hmiddle : ∀ {path v}, s.LeadsToLeaf a path v → ∃ w, s.LeadsToLeaf b path w :=
        fun hv => (SameUnfolding.intro pairs leaves elements).exists_leaf hv
      cases k with
      | intro pairs' leaves' elements' =>
          refine .intro (fun path => (pairs path).trans (pairs' path)) (fun path v w hv hw => ?_)
            fun path r q hr hq i x y hx hy hne => ?_
          · obtain ⟨u, hu⟩ := hmiddle hv
            exact (leaves path v u hv hu).trans (leaves' path u w hu hw)
          · obtain ⟨u, hu⟩ := hmiddle hr
            have hleft := leaves path _ u hr hu
            obtain ⟨p, rfl⟩ := hleft.exists_vector
            obtain ⟨z, hz⟩ : ∃ z, (s.elements p)[i]? = some z := by
              have hi := (List.getElem?_eq_some_iff.mp hx).1
              exact ⟨_, List.getElem?_eq_getElem (hleft.length_eq ▸ hi)⟩
            by_cases hxz : x = z
            · rw [hxz] at hne ⊢
              exact elements' path p q hu hq i z y hz hy hne
            by_cases hzy : z = y
            · rw [← hzy]
              exact elements path r p hr hu i x z hx hz hxz
            · exact ih path r p hr hu i x z hx hz hxz (elements' path p q hu hq i z y hz hy hzy)

end SameUnfolding

theorem NanFree.of_reflTransGen (h : s.NanFree v) (hvw : Relation.ReflTransGen s.Link v w) :
    s.NanFree w :=
  fun x hx => h x (hvw.trans hx)

variable {element : Comparer} {a b : Value}

/-- The two values are pairs whose comparison has begun, or leaves that are
equal. -/
inductive Vouched (s : Store) (seen : Seen) (v w : Value) : Prop
  | begun {r q : Ref} {c d : Cell} (left : v = .pair r) (right : w = .pair q)
      (hr : s.cells[r]? = some c) (hq : s.cells[q]? = some d) (mem : (r, q) ∈ seen)
  | leaves (left : s.cell? v = none) (right : s.cell? w = none) (same : s.SameLeaf v w)
      (elements : ∀ r q, v = .vector r → w = .vector q → ∀ (i : Nat) (x y : Value),
        (s.elements r)[i]? = some x → (s.elements q)[i]? = some y → x ≠ y →
          s.SameUnfolding Eq x y)

theorem Vouched.mono {seen seen' : Seen} (hsub : ∀ p ∈ seen, p ∈ seen')
    (h : s.Vouched seen v w) : s.Vouched seen' v w := by
  cases h with
  | begun left right hr hq mem => exact .begun left right hr hq (hsub _ mem)
  | leaves left right same elements => exact .leaves left right same elements

/-- The comparison of two values has an answer, which says whether their
unfoldings are the same. It is given under the limit and under any higher one,
and under any other limit, unless the values are nested too deeply for it. -/
def Decides (s : Store) (limit : Nat) (short : Value → Value → Prop) (a b : Value) : Prop :=
  ∃ same, (∀ depth ≥ limit, s.equal depth a b = .ok same) ∧
    (∀ depth, s.equal depth a b = .ok same ∨ s.equal depth a b = .error .tooDeep) ∧
    (same = true ↔ s.SameUnfolding short a b)

end Store

/-- A NaN in a vector is equal to itself as an object only. -/
example :
    let s : Store := { vectors := #[[.number (.real (.nan 1))], [.number (.real (.nan 2))],
      [.number (.real (.nan 1))]] }
    s.equal 9 (.vector 0) (.vector 1) = .ok false ∧ s.equal 9 (.vector 0) (.vector 2) = .ok true ∧
      s.equal 9 (.number (.real (.nan 1))) (.number (.real (.nan 1))) = .ok false := by
  decide +kernel

end MiniScheme
