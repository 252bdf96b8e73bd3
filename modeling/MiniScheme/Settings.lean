import MiniScheme.Number.Numeral
import MiniScheme.Text.Blank
import MiniScheme.Text.Uppercase

/-!
# `MiniScheme.Settings`: what variables of the surroundings decide

Three variables are read: the level of the journal, the limit on nested
host calls, and the names of the placeholders. A limit that is no
positive integer counts as not given.

An integer may stand between blanks, may have a sign, and may have single
underscores between its digits.
-/

set_option autoImplicit false

namespace MiniScheme

/-- The values of the variables that are set. -/
abbrev Variables := String → Option String

namespace Settings

/-! ### Integers -/

/-- The blanks that may stand around an integer: all but the information
separators. -/
def isMargin (c : Char) : Bool := Text.isBlank c && !(0x1C ≤ c.toNat && c.toNat ≤ 0x1F)

/-- Digits with single underscores between them. -/
def separatedDigits? : List Char → Option (List Nat)
  | [] => none
  | [c] => (Text.digitValue? c).map fun d => [d]
  | c :: '_' :: cs => do
    let d ← Text.digitValue? c
    let ds ← separatedDigits? cs
    return d :: ds
  | c :: cs => do
    let d ← Text.digitValue? c
    let ds ← separatedDigits? cs
    return d :: ds

/-- The integer that a text stands for. -/
def integer? (s : String) : Option Int := do
  let (negative, cs) := Numeral.sign (Text.stripChars isMargin s.toList)
  let ds ← separatedDigits? cs
  if Numeral.maxDigits < ds.length then none
  else
    let n : Int := Numeral.positional ds
    return if negative then -n else n

/-! ### The settings -/

/-- The name of the journal's level, in upper case. -/
def level (vars : Variables) : String := Text.upper ((vars "FEZ_LOG_LEVEL").getD "WARNING")

/-- The limit on nested host calls, if a valid one is given. -/
def limit? (vars : Variables) : Option Nat := do
  let n ← integer? (← vars "FEZ_RECURSION_LIMIT")
  if 0 < n then return n.toNat else none

/-- The placeholders that are there unless a setting names others. -/
def defaultPlaceholders : List String := ["foo", "bar", "fib", "fact"]

/-- The names in a list with commas between them. -/
def names (s : String) : List String :=
  ((s.splitOn ",").map Text.strip).filter fun name => !name.isEmpty

/-- The names of the placeholders. -/
def placeholders (vars : Variables) : List String :=
  ((vars "FEZ_PLACEHOLDERS").map names).getD defaultPlaceholders

/-! ### Levels -/

/-- The levels under which no journal is kept. -/
def quietLevels : List String := ["CRITICAL", "FATAL", "ERROR", "WARN", "WARNING", "INFO"]

/-- The levels under which a journal is kept. -/
def journalLevels : List String := ["DEBUG", "NOTSET"]

/-- Whether a journal is kept under a level, if there is such a level. -/
def keepsJournal? (level : String) : Option Bool :=
  if level ∈ journalLevels then some true
  else if level ∈ quietLevels then some false
  else none

end Settings

end MiniScheme
