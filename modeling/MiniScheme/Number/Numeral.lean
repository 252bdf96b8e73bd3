import MiniScheme.Number
import MiniScheme.Text.DecimalDigit

/-!
# `MiniScheme.Number.Numeral`: which words are numbers

A numeral is an optional sign, then digits with an optional point among
or after them, or a point and then digits, and then optionally `e` or
`E`, a sign and digits. Digits are decimal digits of any script.

`Numeral.parse?` reads the parts of a whole word and `Numeral.value`
gives their number: an integer when there is neither point nor exponent
and the digits are not too many, otherwise the nearest binary64 number.
-/

set_option autoImplicit false

namespace MiniScheme

/-- The parts of a numeral; digits by their values. -/
structure Numeral where
  negative : Bool
  whole : List Nat
  /-- The digits after the point, if there is a point. -/
  fraction : Option (List Nat)
  /-- The sign and the digits of the exponent, if there is one. -/
  exponent : Option (Bool × List Nat)
deriving DecidableEq

namespace Numeral

/-- The digits that a word starts with, and the rest of it. -/
def digits (cs : List Char) : List Nat × List Char :=
  let (ds, rest) := cs.span fun c => (Text.digitValue? c).isSome
  (ds.filterMap Text.digitValue?, rest)

/-- An optional sign, read as "is negative", and the rest. -/
def sign : List Char → Bool × List Char
  | '-' :: cs => (true, cs)
  | '+' :: cs => (false, cs)
  | cs => (false, cs)

/-- The exponent that makes up the whole of the rest, if it is one;
nothing at all is no exponent. -/
def parseExponent? : List Char → Option (Option (Bool × List Nat))
  | [] => some none
  | c :: cs =>
    if c = 'e' ∨ c = 'E' then
      let (negative, cs) := sign cs
      match digits cs with
      | (d :: ds, []) => some (some (negative, d :: ds))
      | _ => none
    else none

/-- An optional point with the digits after it, and the rest. -/
def point : List Char → Option (List Nat) × List Char
  | '.' :: cs => let (ds, rest) := digits cs; (some ds, rest)
  | cs => (none, cs)

/-- The parts of a word that is a numeral as a whole. -/
def parse? (cs : List Char) : Option Numeral :=
  let (negative, cs) := sign cs
  let (whole, cs) := digits cs
  let (fraction, cs) := point cs
  if whole = [] ∧ fraction.getD [] = [] then none
  else (parseExponent? cs).map fun exponent => { negative, whole, fraction, exponent }

/-- The number that a row of digits stands for. -/
def positional (ds : List Nat) : Nat := ds.foldl (fun n d => 10 * n + d) 0

/-- The most digits that an integer is read from or written with. -/
def maxDigits : Nat := 4300

/-- The number of a numeral. -/
def value (n : Numeral) : Number :=
  if n.fraction.isNone ∧ n.exponent.isNone ∧ n.whole.length ≤ maxDigits then
    .int (if n.negative then -positional n.whole else positional n.whole)
  else
    let fraction := n.fraction.getD []
    let power : Int := match n.exponent with
      | none => 0
      | some (true, ds) => -positional ds
      | some (false, ds) => positional ds
    .real (.ofDecimal n.negative (positional (n.whole ++ fraction)) (power - fraction.length))

end Numeral

/-- The number that a word stands for, if it is a numeral. -/
def Number.ofWord? (word : String) : Option Number := (Numeral.parse? word.toList).map Numeral.value

end MiniScheme
