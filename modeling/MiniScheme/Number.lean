import MiniScheme.Number.Binary64

/-!
# `MiniScheme.Number`: exact integers and binary64 numbers together

Two integers are added and multiplied exactly. As soon as one operand is
a binary64 number, so is the result: the other operand is rounded first,
which fails when it is out of range. Comparison rounds nothing.

The operations `add`, `sub` and `mul` answer nothing exactly in that one
case, and `compare?` nothing exactly for a NaN.
-/

set_option autoImplicit false

namespace MiniScheme

/-- A number of the language. -/
inductive Number where
  | int (n : Int)
  | real (x : Binary64)
deriving DecidableEq

namespace Number

/-- Applies the exact operation to two integers and the rounded one to
any other two numbers. -/
def combine (exact : Int → Int → Int) (rounded : Binary64 → Binary64 → Binary64) :
    Number → Number → Option Number
  | int m, int n => some (int (exact m n))
  | int m, real y => (Binary64.ofInt? m).map fun x => real (rounded x y)
  | real x, int n => (Binary64.ofInt? n).map fun y => real (rounded x y)
  | real x, real y => some (real (rounded x y))

/-- The sum, unless an integer operand is out of range. -/
def add : Number → Number → Option Number := combine (· + ·) Binary64.add

/-- The difference, unless an integer operand is out of range. -/
def sub : Number → Number → Option Number := combine (· - ·) Binary64.sub

/-- The product, unless an integer operand is out of range. -/
def mul : Number → Number → Option Number := combine (· * ·) Binary64.mul

/-- The order of two numbers by their exact values. -/
def compare? : Number → Number → Option Ordering
  | int m, int n => some (compare m n)
  | int m, real y => Binary64.compareInt? m y
  | real x, int n => (Binary64.compareInt? n x).map Ordering.swap
  | real x, real y => Binary64.compare? x y

/-- Equality by value: a NaN equals nothing, and both zeros are equal. -/
def equal (a b : Number) : Bool := compare? a b == some .eq

/-- Strictly smaller by value. -/
def less (a b : Number) : Bool := compare? a b == some .lt

/-- Strictly greater by value. -/
def greater (a b : Number) : Bool := compare? a b == some .gt

end Number

end MiniScheme
