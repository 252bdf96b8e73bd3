import MiniScheme.Number.Shortest
import MiniScheme.Number.Numeral

/-!
# `MiniScheme.Number.Decimal`: the decimal text of a number

Integers are written in full, but only up to the digit limit: a longer
one has no text. Binary64 numbers are written with the fewest digits that
read back, positionally when the leading digit stands between `10 ^ -4`
and `10 ^ 15`, and otherwise as one digit, the rest, and an exponent.

`Number.text?` is the text of a number.
-/

set_option autoImplicit false

namespace MiniScheme

/-- A row of zeros. -/
def zeros (n : Nat) : String := String.ofList (List.replicate n '0')

namespace Decimal

/-- Leading digits from `10 ^ -4` up to `10 ^ 15` are written
positionally. -/
def isPositional (leading : Int) : Bool := -4 ≤ leading && leading < 16

/-- The exponent has a sign always and two digits at least. -/
def exponentText (e : Int) : String :=
  let digits := toString e.natAbs
  "e" ++ (if e < 0 then "-" else "+") ++ (if digits.length < 2 then "0" else "") ++ digits

/-- The text of a positive decimal. A point always stands in positional
writing, and in the other only between digits. -/
def text (x : Decimal) : String :=
  let digits := Nat.toDigits 10 x.digits
  let lead := x.leading
  if isPositional lead then
    if lead < 0 then
      "0." ++ zeros (-lead - 1).toNat ++ String.ofList digits
    else
      let width := lead.toNat + 1
      let whole := String.ofList (digits.take width) ++ zeros (width - digits.length)
      let fraction := String.ofList (digits.drop width)
      whole ++ "." ++ (if fraction.isEmpty then "0" else fraction)
  else
    let rest := String.ofList (digits.drop 1)
    String.ofList (digits.take 1) ++ (if rest.isEmpty then "" else "." ++ rest) ++ exponentText lead

end Decimal

/-- The text of a binary64 number. -/
def Binary64.text : Binary64 → String
  | .nan _ => "nan"
  | .infinite negative => if negative then "-inf" else "inf"
  | .finite negative units =>
    (if negative then "-" else "") ++ (if units = 0 then "0.0" else (shortest units).text)

/-- The first magnitude of an integer that has too many digits. -/
def tooManyDigits : Nat := Nat.pow 10 Numeral.maxDigits

/-- The text of a number; an integer with too many digits has none. -/
def Number.text? : Number → Option String
  | .int n => if n.natAbs < tooManyDigits then some (toString n) else none
  | .real x => some x.text

end MiniScheme
