/-!
# `MiniScheme.ReadError`: what can be wrong with source text

The errors fall into two classes. An incomplete text ends inside a form
that more text could finish; any other error stays, whatever follows.
`ReadError.isIncomplete` tells them apart and `ReadError.message` words
them.
-/

set_option autoImplicit false

namespace MiniScheme

/-- After what a datum has to follow. -/
inductive Lead where
  | quote
  | dot
deriving DecidableEq

/-- The wording of a lead in messages. -/
def Lead.text : Lead → String
  | .quote => "quote"
  | .dot => "'.'"

/-- A fault of source text. -/
inductive ReadError where
  /-- A string that starts at `position` is never closed. -/
  | openString (position : Nat)
  /-- The text ends inside a list. -/
  | openList
  /-- The text ends inside a vector. -/
  | openVector
  /-- The text ends where a datum has to follow. -/
  | endAfter (lead : Lead)
  /-- A list closes where a datum has to follow. -/
  | closeAfter (lead : Lead)
  /-- A dot that is not inside a list, or not between data of it. -/
  | strayDot
  /-- A dot before the first datum of a list. -/
  | leadingDot
  /-- More than one datum after a dot. -/
  | longTail
  /-- A closing parenthesis without an opening one. -/
  | strayClose
  /-- A token of a kind that stands for nothing. -/
  | unknownToken (kind text : String)
deriving DecidableEq

namespace ReadError

/-- More text could mend the fault. -/
def isIncomplete : ReadError → Bool
  | openString _ | openList | openVector | endAfter _ => true
  | _ => false

/-- The wording of a fault. -/
def message : ReadError → String
  | openString position => "Unterminated string at " ++ toString position
  | openList => "Unmatched '('"
  | openVector => "Unexpected EOF while reading vector"
  | endAfter lead => "Expected an expression after " ++ lead.text
  | closeAfter lead => "Expected an expression after " ++ lead.text
  | strayDot => "Unexpected '.'"
  | leadingDot => "Unexpected '.' at start of list"
  | longTail => "Expected ')' after dotted cdr"
  | strayClose => "Unmatched ')'"
  | unknownToken kind text => "Unknown token: " ++ kind ++ " " ++ text

end ReadError

end MiniScheme
