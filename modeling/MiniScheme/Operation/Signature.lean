import MiniScheme.Operation

/-!
# `MiniScheme.Operation.Signature`: the parameters of the operations

A primitive may be declared for a count of arguments that its operation
does not take. The call then fails, and the failure names the operation's
routine and either the parameters that are missing or the counts that the
routine takes.
-/

set_option autoImplicit false

namespace MiniScheme

/-- A routine and its parameters. -/
structure Signature where
  routine : String
  /-- How many places of the routine are filled before any argument. -/
  filled : Nat := 0
  /-- The parameters that have to be given. -/
  required : List String
  /-- The parameters that may be left out. -/
  optional : List String := []

namespace Signature

/-- The word for `n` arguments. -/
def arguments (n : Nat) : String := if n = 1 then "positional argument" else "positional arguments"

/-- The wording for arguments that are too few. -/
def tooFew (missing : List String) : String :=
  "missing " ++ toString missing.length ++ " required " ++ arguments missing.length ++ ": " ++
    " and ".intercalate (missing.map fun name => "'" ++ name ++ "'")

/-- The wording for `count` arguments that are too many. -/
def tooMany (s : Signature) (count : Nat) : String :=
  let least := s.filled + s.required.length
  let most := least + s.optional.length
  let takes :=
    if s.optional.isEmpty then toString most ++ " " ++ arguments most
    else "from " ++ toString least ++ " to " ++ toString most ++ " positional arguments"
  "takes " ++ takes ++ " but " ++ toString (s.filled + count) ++ " were given"

/-- The wording for `count` arguments, if the routine does not take as
many. -/
def refusal (s : Signature) (count : Nat) : String :=
  let missing := s.required.drop count
  s.routine ++ " " ++ if missing.isEmpty then s.tooMany count else tooFew missing

end Signature

/-- The routine of an operation and its parameters, as failures name
them. -/
def Operation.signature : Operation → Signature
  | cons => { routine := "Pair.__init__()", filled := 1, required := ["car"], optional := ["cdr"] }
  | car => { routine := "car()", required := ["p"] }
  | cdr => { routine := "cdr()", required := ["p"] }
  | setCar => { routine := "set_car()", required := ["p", "value"] }
  | setCdr => { routine := "set_cdr()", required := ["p", "value"] }
  | add | sub | mul => { routine := "_numeric.<locals>.wrapper()", required := ["a", "b"] }
  | equal | less | greater =>
    { routine := "_predicate.<locals>.wrapper()", required := ["a", "b"] }
  | same => { routine := "is_eq()", required := ["a", "b"] }
  | isPair => { routine := "is_pair()", required := ["value"] }
  | isNull => { routine := "is_null()", required := ["value"] }
  | isSymbol => { routine := "is_symbol()", required := ["value"] }

end MiniScheme
