/-!
# `MiniScheme.Number.Binary64`: binary64 arithmetic in exact integers

Every finite binary64 number is a whole multiple of the least positive
one, `2 ^ -1074`. So a finite number is held as its sign and the count of
such units, and sums, products and comparisons are exact integer work
followed by one rounding.

* `roundQuotient` rounds a fraction to the nearest integer, a half to the
  even neighbour.
* `roundUnits` keeps 53 significant bits of a fraction of units, by the
  same rule.
* `Binary64.ofQuotient` adds the overflow: from `2 ^ 1024` on the result
  is infinite.
* `Binary64.add`, `sub`, `mul` are the correctly rounded operations, and
  `Binary64.compare?` the order, in which a NaN has no place.
-/

set_option autoImplicit false

namespace MiniScheme

/-- A binary64 number. A finite one is `units · 2 ^ -1074`; the sign is
kept beside it, so that zero has two signs.

A NaN is unequal to itself by value, so it shows whether two of them are
one object; `object` tells them apart. All other numbers are known by
their values alone. -/
inductive Binary64 where
  | nan (object : Nat)
  | infinite (negative : Bool)
  | finite (negative : Bool) (units : Nat)
deriving DecidableEq

/-! ### Rounding -/

/-- The integer nearest to `num / den`; a half goes to the even
neighbour. -/
def roundQuotient (num den : Nat) : Nat :=
  let quotient := num / den
  let twice := 2 * (num % den)
  if twice < den then quotient
  else if den < twice then quotient + 1
  else if quotient % 2 = 0 then quotient
  else quotient + 1

namespace Binary64

/-- Units per whole number, as a power of two. -/
def unitBits : Nat := 1074

/-- Significant bits. -/
def precision : Nat := 53

/-- The number of units in one. -/
def one : Nat := Nat.pow 2 unitBits

/-- The first magnitude, in units, that is out of range. -/
def overflow : Nat := Nat.pow 2 (1024 + unitBits)

/-- How many low bits a magnitude has beyond the significant ones. -/
def excess (units : Nat) : Nat := units.log2 + 1 - precision

/-- The magnitude with at most 53 significant bits nearest to
`num / den` units. -/
def roundUnits (num den : Nat) : Nat :=
  let scale := Nat.pow 2 (excess (num / den))
  roundQuotient num (den * scale) * scale

/-- The number nearest to `num / den` units, infinite when that is out of
range. -/
def ofQuotient (negative : Bool) (num den : Nat) : Binary64 :=
  let units := roundUnits num den
  if units < overflow then finite negative units else infinite negative

/-- The number nearest to an integer. -/
def ofInt (n : Int) : Binary64 := ofQuotient (n < 0) (n.natAbs * one) 1

/-- The number nearest to an integer, unless it is out of range. -/
def ofInt? (n : Int) : Option Binary64 :=
  match ofInt n with
  | .infinite _ => none
  | x => some x

/-- The number nearest to `digits · 10 ^ exponent`. Magnitudes far out of
range are decided by their length alone. -/
def ofDecimal (negative : Bool) (digits : Nat) (exponent : Int) : Binary64 :=
  let top := (Nat.toDigits 10 digits).length + exponent
  if digits = 0 ∨ top < -400 then finite negative 0
  else if 400 < top then infinite negative
  else if 0 ≤ exponent then ofQuotient negative (digits * Nat.pow 10 exponent.toNat * one) 1
  else ofQuotient negative (digits * one) (Nat.pow 10 (-exponent).toNat)

/-! ### Operations -/

/-- The result of an operation that has none. Nothing puts the result of
an operation into a vector, where alone a NaN is known as an object, so
all of them may be the same one. -/
def undefined : Binary64 := nan 0

/-- A magnitude with its sign. -/
def signed (negative : Bool) (units : Nat) : Int := if negative then -units else units

/-- The opposite number. -/
def neg : Binary64 → Binary64
  | nan object => nan object
  | infinite negative => infinite (!negative)
  | finite negative units => finite (!negative) units

/-- The rounded sum. Opposite infinities have none, and a sum of zero is
negative only when both terms are. -/
def add : Binary64 → Binary64 → Binary64
  | nan _, _ => undefined
  | _, nan _ => undefined
  | infinite a, infinite b => if a = b then infinite a else undefined
  | infinite a, finite .. => infinite a
  | finite .., infinite b => infinite b
  | finite a u, finite b v =>
    let sum := signed a u + signed b v
    if sum = 0 then finite (a && b) 0 else ofQuotient (sum < 0) sum.natAbs 1

/-- The rounded difference. -/
def sub (x y : Binary64) : Binary64 := add x (neg y)

/-- The rounded product. An infinity times zero has none. -/
def mul : Binary64 → Binary64 → Binary64
  | nan _, _ => undefined
  | _, nan _ => undefined
  | infinite a, infinite b => infinite (a != b)
  | infinite a, finite b v => if v = 0 then undefined else infinite (a != b)
  | finite a u, infinite b => if u = 0 then undefined else infinite (a != b)
  | finite a u, finite b v => ofQuotient (a != b) (u * v) one

/-! ### Order -/

/-- How a number with the given sign at infinity stands to any finite
one. -/
def infiniteOrder (negative : Bool) : Ordering := if negative then .lt else .gt

/-- The order of two numbers; a NaN is not ordered. -/
def compare? : Binary64 → Binary64 → Option Ordering
  | nan _, _ => none
  | _, nan _ => none
  | infinite a, infinite b => some (if a = b then .eq else infiniteOrder a)
  | infinite a, finite .. => some (infiniteOrder a)
  | finite .., infinite b => some (infiniteOrder b).swap
  | finite a u, finite b v => some (compare (signed a u) (signed b v))

/-- The order of an integer and a number, by their exact values. -/
def compareInt? (n : Int) : Binary64 → Option Ordering
  | nan _ => none
  | infinite b => some (infiniteOrder b).swap
  | finite b v => some (compare (n * one) (signed b v))

end Binary64

end MiniScheme
