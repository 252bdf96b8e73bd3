import MiniScheme.Operation.Signature
import MiniScheme.ReadError

/-!
# `MiniScheme.Fault`: how reading, printing and evaluation can fail

A fault is a cause, with the texts of the values that it names: values
can change after the fault, so their texts are taken when it arises.
`Fault.message` words every cause.

Most faults are errors of the program that was run. Four are limits: an
integer out of the range of binary64 numbers, an integer with too many
digits to be written, nesting that is too deep, and a walk along a
circular list that would not end. One is an error of whoever declared a
primitive. `Fault.report?` says which faults a console reports before it
goes on, and with which words.
-/

set_option autoImplicit false

namespace MiniScheme

/-- The cause of a failure. -/
inductive Fault where
  /-- Source text that cannot be read. -/
  | reading (e : ReadError)
  /-- A name that no visible frame binds. -/
  | unbound (name : String)
  /-- A value that is no expression. -/
  | unevaluable (shown : String)
  /-- A call of something that is no procedure. -/
  | notCallable (shown : String)
  /-- A wrong count of arguments, values or operands. -/
  | arity (context : String) (expected : Option Int) (actual : Option Nat)
  /-- A call whose operands are no proper list. -/
  | improperCall (shown : String)
  /-- A special form whose operands are no proper list. -/
  | improperForm (form : String)
  /-- An assignment to something that is no symbol. -/
  | assignmentTarget (shown : String)
  /-- A definition of something that is no symbol. -/
  | definitionTarget (shown : String)
  /-- A formal parameter that is no symbol. -/
  | parameter (shown : String)
  /-- Formal parameters that end in neither `()` nor a symbol. -/
  | parameterList (shown : String)
  /-- An operation on pairs, given something else. -/
  | notPair (operation shown : String)
  /-- An operation on numbers, given something else. -/
  | notNumbers (operation left right : String)
  /-- A primitive declared for a count of arguments that its operation
  does not take. -/
  | operandCount (operation : Operation) (count : Nat)
  /-- An integer too large for a binary64 number. -/
  | outOfRange
  /-- An integer with too many digits to be written. -/
  | tooManyDigits
  /-- Nesting beyond the limit. -/
  | tooDeep
  /-- A walk along a list that does not end. -/
  | endless
deriving DecidableEq

namespace Fault

/-- The wording of a count: only the parts that are known. -/
def arityMessage (context : String) : Option Int → Option Nat → String
  | none, none => context
  | none, some actual => context ++ ", got " ++ toString actual
  | some expected, actual =>
    context ++ ": expected " ++ toString expected ++ ", got " ++
      (actual.map toString).getD "None"

/-- The wording of a fault. -/
def message : Fault → String
  | reading e => e.message
  | unbound name => "Unbound variable " ++ name
  | unevaluable shown => "Cannot evaluate " ++ shown
  | notCallable shown => "Not a function: " ++ shown
  | arity context expected actual => arityMessage context expected actual
  | improperCall shown => "Combination is not a proper list: " ++ shown
  | improperForm form => form ++ " form is not a proper list"
  | assignmentTarget shown => "set! first argument must be a Symbol, got " ++ shown
  | definitionTarget shown => "Cannot define " ++ shown ++ " as a symbol"
  | parameter shown => "Formal parameter must be a symbol, got " ++ shown
  | parameterList shown => "Malformed parameter list: " ++ shown
  | notPair operation shown => operation ++ ": expected a pair, got " ++ shown
  | notNumbers operation left right =>
    operation ++ ": expected numbers, got " ++ left ++ " and " ++ right
  | operandCount operation count => operation.signature.refusal count
  | outOfRange => "int too large to convert to float"
  | tooManyDigits =>
    "Exceeds the limit (4300 digits) for integer string conversion; " ++
      "use sys.set_int_max_str_digits() to increase the limit"
  | tooDeep => "maximum recursion depth exceeded"
  | endless => "circular list"

/-- The report of a console that goes on after the fault. A limit other
than that on nesting ends the console instead, and so does a primitive
that is declared wrongly. -/
def report? : Fault → Option String
  | operandCount .. | outOfRange | tooManyDigits | endless => none
  | fault => some fault.message

end Fault

end MiniScheme
