import MiniScheme.Text.Printable

/-!
# `MiniScheme.Text.Quoted`: a text between quotes, on one line

A quoted text stands between single quotes, or between double quotes
when it holds a single quote and no double one. A backslash, the quote
in use, and the newline, carriage return and tab are escaped by a
backslash; every other character that is not printable is written by its
code point, with as few of two, four or eight lower-case hexadecimal
digits as hold it.

`quoted` writes a text this way.
-/

set_option autoImplicit false

namespace MiniScheme.Text

/-- A number in lower-case hexadecimal with at least `width` digits. -/
def hex (width n : Nat) : String :=
  let digits := Nat.toDigits 16 n
  String.ofList (List.replicate (width - digits.length) '0' ++ digits)

/-- The code point of a character as an escape. -/
def codeEscape (c : Char) : String :=
  if c.toNat < 0x100 then "\\x" ++ hex 2 c.toNat
  else if c.toNat < 0x10000 then "\\u" ++ hex 4 c.toNat
  else "\\U" ++ hex 8 c.toNat

/-- A character between the given quotes. -/
def quotedChar (quote c : Char) : String :=
  if c = '\\' then "\\\\"
  else if c = quote then String.ofList ['\\', c]
  else if c = '\n' then "\\n"
  else if c = '\r' then "\\r"
  else if c = '\t' then "\\t"
  else if isPrintable c then c.toString
  else codeEscape c

/-- The quote that a text takes: double only to spare the escape of a
single one. -/
def quoteOf (s : String) : Char :=
  if s.toList.contains '\x27' && !s.toList.contains '"' then '"' else '\x27'

/-- A text between quotes, on one line and printable throughout. -/
def quoted (s : String) : String :=
  let quote := quoteOf s
  let body := s.toList.foldl (fun out c => out ++ quotedChar quote c) ""
  quote.toString ++ body ++ quote.toString

end MiniScheme.Text
