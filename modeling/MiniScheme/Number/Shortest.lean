import MiniScheme.Number.Binary64

/-!
# `MiniScheme.Number.Shortest`: the fewest decimal digits that read back

A decimal reads back as a binary64 number when it lies between the
midpoints to the number's two neighbours; a midpoint itself goes to the
neighbour with the even significand. `shortest` takes the fewest digits
for which some decimal lies there, and of two such decimals the nearer
one; at an equal distance the one with the even last digit.

If some decimal of a given length reads back, then so does one of the two
that enclose the number, so `onGrid?` tests only those two. Seventeen
digits always suffice.
-/

set_option autoImplicit false

namespace MiniScheme

/-- A positive decimal `digits · 10 ^ exponent`. -/
structure Decimal where
  digits : Nat
  exponent : Int
deriving DecidableEq

namespace Decimal

/-- The number of decimal digits of a natural number. -/
def length (n : Nat) : Nat := (Nat.toDigits 10 n).length

/-- The decimal without zeros at its end, by at most `fuel` divisions. -/
def trimmed : Nat → Decimal → Decimal
  | 0, x => x
  | fuel + 1, x =>
    if x.digits ≠ 0 ∧ x.digits % 10 = 0 then trimmed fuel ⟨x.digits / 10, x.exponent + 1⟩ else x

/-- The power of ten of the leading digit. -/
def leading (x : Decimal) : Int := length x.digits - 1 + x.exponent

end Decimal

namespace Binary64

/-- The power of ten of the leading digit of a positive magnitude. -/
def leadingExponent (units : Nat) : Int :=
  (Decimal.length (units * Nat.pow 10 400 / one) : Int) - 401

/-- The decimals that read back as a magnitude, as bounds in quarters of
a unit, and whether the bounds themselves do. -/
structure Basin where
  low : Nat
  high : Nat
  closed : Bool

/-- The basin of a positive magnitude. Below a power of two the
neighbour is half as far away. -/
def basin (units : Nat) : Basin :=
  let gap := Nat.pow 2 (excess units)
  let significand := units / gap
  let below := if significand = Nat.pow 2 (precision - 1) ∧ 1 < gap then gap else 2 * gap
  { low := 4 * units - below, high := 4 * units + 2 * gap, closed := significand % 2 = 0 }

/-- A fraction of quarters of a unit lies in the basin. -/
def Basin.has (b : Basin) (num den : Nat) : Bool :=
  if b.closed then b.low * den ≤ num && num ≤ b.high * den
  else b.low * den < num && num < b.high * den

/-- The decimal with `exponent` as its last place that reads back as
`units`, if there is one. -/
def onGrid? (units : Nat) (exponent : Int) : Option Decimal :=
  let up := Nat.pow 10 (-exponent).toNat
  let down := Nat.pow 10 exponent.toNat
  -- The magnitude is `num / den` steps of the grid.
  let num := units * up
  let den := one * down
  let floor := num / den
  let reads (n : Nat) : Bool := (basin units).has (4 * n * den) up
  let twice := 2 * (num % den)
  let nearFloor := twice < den || (twice == den && floor % 2 == 0)
  match reads floor, reads (floor + 1) with
  | true, false => some ⟨floor, exponent⟩
  | false, true => some ⟨floor + 1, exponent⟩
  | true, true => some ⟨if nearFloor then floor else floor + 1, exponent⟩
  | false, false => none

/-- The shortest decimal that reads back as a positive magnitude. -/
def shortest (units : Nat) : Decimal :=
  let top := leadingExponent units
  let found := (List.range 17).findSome? fun (n : Nat) => onGrid? units (top - n)
  Decimal.trimmed 20 (found.getD ⟨0, 0⟩)

end Binary64

end MiniScheme
