import Mathlib.Data.List.Basic
import Mathlib.Data.List.TakeDrop
import Mathlib.Data.List.TakeWhile
import MiniScheme.Number.Decimal
import MiniScheme.Number.Numeral

/-!
# `MiniScheme.Proofs.Numeral`: the decimal text of an integer reads back

`Number.text?` writes an integer in decimal, and `Number.ofWord?` takes
any numeral of the language. The main statement is
`ofWord?_toString_int`: the text of an integer, when it has one, is a
numeral of that very integer.

The other way round, `natAbs_lt_of_ofWord?` says that an integer which a
word stands for has such a text, and `not_isNan_of_ofWord?` that no word
stands for a NaN.

The way there is through the row of digits. `digits_of_isDigit` says
that a row of ASCII digits is taken whole, `positional_map` that it
stands for the same number here and in the library's
`Nat.ofDigitChars`, and the digit limit of the reader is the limit of
the printer by `Nat.length_toDigits_le_iff`.
-/

set_option autoImplicit false

namespace MiniScheme

namespace Numeral

/-- An ASCII digit stands for its distance from `0`. -/
theorem digitValue?_of_isDigit {c : Char} (h : c.isDigit = true) :
    Text.digitValue? c = some (c.toNat - '0'.toNat) := by
  have hc : c.toNat < 0x80 := by
    simp only [Char.isDigit, Bool.and_eq_true, decide_eq_true_eq] at h
    have hle : c.toNat ≤ '9'.toNat := h.2
    exact Nat.lt_of_le_of_lt hle (by decide)
  simp only [Text.digitValue?, hc, h, if_true]
  rfl

/-- A row of ASCII digits is taken whole. -/
theorem digits_of_isDigit {cs : List Char} (h : ∀ c ∈ cs, c.isDigit = true) :
    digits cs = (cs.map fun c => c.toNat - '0'.toNat, []) := by
  have hsome : ∀ c ∈ cs, (Text.digitValue? c).isSome = true := fun c hc => by
    rw [digitValue?_of_isDigit (h c hc)]; rfl
  have hvalues : cs.filterMap Text.digitValue? = cs.map fun c => c.toNat - '0'.toNat := by
    rw [← List.filterMap_eq_map]
    exact List.filterMap_congr fun c hc => digitValue?_of_isDigit (h c hc)
  simp only [digits, List.span_eq_takeWhile_dropWhile, List.takeWhile_eq_self_iff.mpr hsome,
    List.dropWhile_eq_nil_iff.mpr hsome, hvalues]

/-- A row of digits stands for the number that the library reads from
it. -/
theorem positional_map (cs : List Char) :
    positional (cs.map fun c => c.toNat - '0'.toNat) = Nat.ofDigitChars 10 cs 0 := by
  simp only [positional, Nat.ofDigitChars_eq_foldl, List.foldl_map]

/-- A row that starts with a digit has no sign. -/
theorem sign_of_isDigit {c : Char} (cs : List Char) (h : c.isDigit = true) :
    sign (c :: cs) = (false, c :: cs) := by
  unfold sign
  split
  · rename_i heq
    cases heq
    exact absurd h (by decide)
  · rename_i heq
    cases heq
    exact absurd h (by decide)
  · rfl

/-- What follows a sign, if it is a row of digits, is an integer
numeral. -/
theorem parse?_of_sign {cs ds : List Char} {negative : Bool} (hsign : sign cs = (negative, ds))
    (hdigit : ∀ c ∈ ds, c.isDigit = true) (hne : ds ≠ []) :
    parse? cs = some ⟨negative, ds.map fun c => c.toNat - '0'.toNat, none, none⟩ := by
  simp only [parse?, hsign, digits_of_isDigit hdigit, point, parseExponent?, List.map_eq_nil_iff,
    hne, false_and, if_false, Option.map_some]

/-- The number of an integer numeral that is short enough. -/
theorem value_of_length {ds : List Char} (negative : Bool) (hlen : ds.length ≤ maxDigits) :
    value ⟨negative, ds.map fun c => c.toNat - '0'.toNat, none, none⟩
      = .int (if negative then -(Nat.ofDigitChars 10 ds 0 : Int)
          else Nat.ofDigitChars 10 ds 0) := by
  simp only [value, Option.isNone_none, List.length_map, hlen, and_self, if_true, positional_map]

end Numeral

/-- The decimal text of a natural number is a row of ASCII digits. -/
theorem isDigit_of_mem_toDigits {n : Nat} :
    ∀ c ∈ Nat.toDigits 10 n, c.isDigit = true := fun _ hc =>
  Nat.isDigit_of_mem_toDigits (by decide) (by decide) hc

/-- A natural number below the limit of the printer has few enough digits
for the reader. The bound is stated for any number of digits first, so
that nothing evaluates the power. -/
theorem length_toDigits_le_maxDigits {n : Nat} (h : n < tooManyDigits) :
    (Nat.toDigits 10 n).length ≤ Numeral.maxDigits := by
  have hbound : ∀ k, 0 < k → n < Nat.pow 10 k → (Nat.toDigits 10 n).length ≤ k := fun k hk hn =>
    (Nat.length_toDigits_le_iff (by decide) hk).mpr hn
  unfold tooManyDigits at h
  exact hbound Numeral.maxDigits (by decide) h

/-- The characters of an integer's text: its digits, after a minus sign
if it is negative. -/
theorem toList_toString_int (n : Int) :
    (toString n).toList
      = if 0 ≤ n then Nat.toDigits 10 n.natAbs else '-' :: Nat.toDigits 10 n.natAbs := by
  rw [Int.toString_eq_repr, Int.repr_eq_if]
  split
  · rw [Nat.toList_repr, show n.toNat = n.natAbs by omega]
  · rw [String.toList_append, Nat.toList_repr, show (-n).toNat = n.natAbs by omega]
    rfl

/-- The decimal text of an integer of at most 4300 digits is a numeral of
that integer. -/
theorem ofWord?_toString_int {n : Int} (h : n.natAbs < tooManyDigits) :
    Number.ofWord? (toString n) = some (.int n) := by
  have hlen := length_toDigits_le_maxDigits h
  have hne : Nat.toDigits 10 n.natAbs ≠ [] := Nat.toDigits_ne_nil
  have hdigit : ∀ c ∈ Nat.toDigits 10 n.natAbs, c.isDigit = true := isDigit_of_mem_toDigits
  rw [Number.ofWord?, toList_toString_int]
  split
  · -- Without a sign, the first digit must not be taken for one.
    rename_i hn
    have hsign : Numeral.sign (Nat.toDigits 10 n.natAbs) = (false, Nat.toDigits 10 n.natAbs) := by
      obtain ⟨c, cs, hcs⟩ := List.exists_cons_of_ne_nil hne
      rw [hcs]
      exact Numeral.sign_of_isDigit cs (hdigit c (by rw [hcs]; exact List.mem_cons_self))
    rw [Numeral.parse?_of_sign hsign hdigit hne, Option.map_some, Numeral.value_of_length _ hlen,
      Nat.ofDigitChars_ten_toDigits]
    simp only [Bool.false_eq_true, if_false, Option.some.injEq, Number.int.injEq]
    omega
  · rename_i hn
    have hsign : Numeral.sign ('-' :: Nat.toDigits 10 n.natAbs)
        = (true, Nat.toDigits 10 n.natAbs) := rfl
    rw [Numeral.parse?_of_sign hsign hdigit hne, Option.map_some, Numeral.value_of_length _ hlen,
      Nat.ofDigitChars_ten_toDigits]
    simp only [if_true, Option.some.injEq, Number.int.injEq]
    omega

/-! ### Integers that are read are short -/

theorem Text.digitValue?_lt {c : Char} {d : Nat} (h : Text.digitValue? c = some d) : d < 10 := by
  unfold Text.digitValue? at h
  split at h
  · split at h
    · rename_i hdigit
      simp only [Char.isDigit, Bool.and_eq_true, decide_eq_true_eq] at hdigit
      have hle : c.toNat ≤ '9'.toNat := hdigit.2
      have hnine : '9'.toNat = 0x39 := rfl
      cases h
      omega
    · cases h
  · obtain ⟨base, hbase, rfl⟩ := Option.map_eq_some_iff.mp h
    have hrow := List.find?_some hbase
    simp only [Bool.and_eq_true, decide_eq_true_eq] at hrow
    omega

namespace Numeral

theorem digits_lt {cs : List Char} : ∀ d ∈ (digits cs).1, d < 10 := by
  intro d hd
  obtain ⟨c, -, hc⟩ := List.mem_filterMap.mp hd
  exact Text.digitValue?_lt hc

/-- A row of digits stands for less than the next power of ten. -/
theorem positional_lt {ds : List Nat} (h : ∀ d ∈ ds, d < 10) :
    positional ds < Nat.pow 10 ds.length := by
  have key : ∀ n, ds.foldl (fun n d => 10 * n + d) n < (n + 1) * Nat.pow 10 ds.length := by
    induction ds with
    | nil => exact fun n => Nat.lt_of_lt_of_eq (Nat.lt_succ_self n) (Nat.mul_one _).symm
    | cons d ds ih =>
        intro n
        have hd := h d List.mem_cons_self
        calc (d :: ds).foldl (fun n d => 10 * n + d) n
            < (10 * n + d + 1) * Nat.pow 10 ds.length :=
              ih (fun e he => h e (List.mem_cons_of_mem d he)) _
          _ ≤ ((n + 1) * 10) * Nat.pow 10 ds.length := Nat.mul_le_mul_right _ (by omega)
          _ = (n + 1) * (Nat.pow 10 ds.length * 10) := by rw [Nat.mul_assoc, Nat.mul_comm 10]
          _ = (n + 1) * Nat.pow 10 (d :: ds).length := rfl
  have hbound := key 0
  rwa [Nat.zero_add, Nat.one_mul] at hbound

theorem whole_lt {cs : List Char} {n : Numeral} (h : parse? cs = some n) :
    ∀ d ∈ n.whole, d < 10 := by
  simp only [parse?] at h
  split at h
  · cases h
  · obtain ⟨exponent, -, rfl⟩ := Option.map_eq_some_iff.mp h
    exact digits_lt

/-- An integer comes from a numeral that has few enough digits. -/
theorem natAbs_lt_of_value {n : Numeral} {k : Int} (hdigits : ∀ d ∈ n.whole, d < 10)
    (h : n.value = .int k) : k.natAbs < tooManyDigits := by
  unfold value at h
  split at h
  · rename_i hshort
    -- For any number of digits first, so that nothing evaluates the power.
    have hbound : ∀ most, n.whole.length ≤ most → positional n.whole < Nat.pow 10 most :=
      fun most hlen => Nat.lt_of_lt_of_le (positional_lt hdigits)
        (Nat.pow_le_pow_right (by decide) hlen)
    have habs : k.natAbs = positional n.whole := by
      cases h
      split <;> simp
    rw [habs]
    unfold tooManyDigits
    exact hbound maxDigits hshort.2.2
  · cases h

end Numeral

/-- An integer that a word stands for has few enough digits to be written. -/
theorem natAbs_lt_of_ofWord? {word : String} {k : Int} (h : Number.ofWord? word = some (.int k)) :
    k.natAbs < tooManyDigits := by
  obtain ⟨n, hparse, hvalue⟩ := Option.map_eq_some_iff.mp h
  exact Numeral.natAbs_lt_of_value (Numeral.whole_lt hparse) hvalue

/-! ### Reals that are read have a value -/

/-- The number is a NaN. -/
def Binary64.IsNan : Binary64 → Prop
  | .nan _ => True
  | _ => False

theorem Binary64.not_isNan_ofQuotient (negative : Bool) (num den : Nat) :
    ¬ (ofQuotient negative num den).IsNan := by
  unfold ofQuotient
  dsimp only
  split <;> exact id

theorem Binary64.not_isNan_ofDecimal (negative : Bool) (digits : Nat) (exponent : Int) :
    ¬ (ofDecimal negative digits exponent).IsNan := by
  unfold ofDecimal
  dsimp only
  split
  · exact id
  · split
    · exact id
    · split <;> exact not_isNan_ofQuotient _ _ _

/-- No word stands for a NaN. -/
theorem not_isNan_of_ofWord? {word : String} {x : Binary64}
    (h : Number.ofWord? word = some (.real x)) : ¬ x.IsNan := by
  obtain ⟨n, -, hvalue⟩ := Option.map_eq_some_iff.mp h
  unfold Numeral.value at hvalue
  split at hvalue
  · cases hvalue
  · cases hvalue
    exact Binary64.not_isNan_ofDecimal _ _ _

end MiniScheme
