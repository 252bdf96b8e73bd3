/-!
# `MiniScheme.Text.Blank`: the characters that separate words

A blank is a character of the Unicode property `White_Space` or one of
the four information separators `U+001C` to `U+001F`. Source text,
console input and the settings all agree on this one class.

`isBlank` decides the class, `strip` takes blanks off both ends of a
text, and `isAllBlank` says that nothing else is in it.
-/

set_option autoImplicit false

namespace MiniScheme.Text

/-- The blanks as ranges of code points, both ends included, in
increasing order. -/
def blankRanges : List (Nat × Nat) :=
  [(0x09, 0x0D), (0x1C, 0x20), (0x85, 0x85), (0xA0, 0xA0), (0x1680, 0x1680),
   (0x2000, 0x200A), (0x2028, 0x2029), (0x202F, 0x202F), (0x205F, 0x205F),
   (0x3000, 0x3000)]

/-- A code point lies in one of the given ranges. -/
def inRanges (ranges : List (Nat × Nat)) (code : Nat) : Bool :=
  ranges.any fun (first, last) => first ≤ code && code ≤ last

/-- Blanks separate words and belong to none. -/
def isBlank (c : Char) : Bool := inRanges blankRanges c.toNat

/-- The characters of a text without those that satisfy `p` at either
end. -/
def stripChars (p : Char → Bool) (cs : List Char) : List Char :=
  ((cs.dropWhile p).reverse.dropWhile p).reverse

/-- A text without the blanks at either end. -/
def strip (s : String) : String := String.ofList (stripChars isBlank s.toList)

/-- Nothing but blanks. -/
def isAllBlank (s : String) : Bool := s.toList.all isBlank

end MiniScheme.Text
