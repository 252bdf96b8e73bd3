import MiniScheme.Machine

/-!
# `MiniScheme.Operation.Run`: what the built-in operations do

`Operation.run` applies an operation to its arguments. An operation on
pairs or numbers refuses other values and then changes nothing; the
arithmetic ones can also leave the range of binary64 numbers. Only
`set-car!` and `set-cdr!` change an object, and only `cons` makes one.

An operation never calls a procedure, so it works on all machines alike,
whatever their primitives are.
-/

set_option autoImplicit false

namespace MiniScheme.Operation

variable {F : Type}

/-- The fields of an argument that has to be a pair, with its place. -/
def pairArgument (depth : Nat) (op : Operation) (v : Value) : EvalOn F (Ref × Cell) := do
  match v, ← inquire fun s => s.cell? v with
  | .pair r, some c => return (r, c)
  | v, _ => failShowing depth (.notPair op.name) v

/-- Two arguments that have to be numbers. -/
def numberArguments (depth : Nat) (op : Operation) (a b : Value) : EvalOn F (Number × Number) := do
  match a, b with
  | .number m, .number n => return (m, n)
  | a, b =>
    let left ← examine fun s => s.display depth a
    let right ← examine fun s => s.display depth b
    throw (.notNumbers op.name left right)

/-- An arithmetic operation. -/
def arithmetic (depth : Nat) (op : Operation) (f : Number → Number → Option Number)
    (a b : Value) : EvalOn F Value := do
  let (m, n) ← numberArguments depth op a b
  match f m n with
  | some r => return .number r
  | none => throw .outOfRange

/-- A comparison of numbers. -/
def comparison (depth : Nat) (op : Operation) (f : Number → Number → Bool)
    (a b : Value) : EvalOn F Value := do
  let (m, n) ← numberArguments depth op a b
  return .boolean (f m n)

/-- Identity, except that numbers are compared by value. -/
def sameObject : Value → Value → Bool
  | .number m, .number n => m.equal n
  | a, b => a = b

/-- A value is a symbol. -/
def symbolic : Value → Bool
  | .symbol _ => true
  | _ => false

/-- Applies an operation. A pair can be made without a second field, which
is then the empty list. -/
def run (depth : Nat) (op : Operation) (args : List Value) : EvalOn F Value :=
  match op, args with
  | cons, [a] => change fun s => s.cons a .nil
  | cons, [a, d] => change fun s => s.cons a d
  | car, [p] => do let (_, c) ← pairArgument depth op p; return c.car
  | cdr, [p] => do let (_, c) ← pairArgument depth op p; return c.cdr
  | setCar, [p, v] => do
    let (r, _) ← pairArgument depth op p
    change fun s => (p, s.setCar r v)
  | setCdr, [p, v] => do
    let (r, _) ← pairArgument depth op p
    change fun s => (p, s.setCdr r v)
  | add, [a, b] => arithmetic depth op Number.add a b
  | sub, [a, b] => arithmetic depth op Number.sub a b
  | mul, [a, b] => arithmetic depth op Number.mul a b
  | equal, [a, b] => comparison depth op Number.equal a b
  | less, [a, b] => comparison depth op Number.less a b
  | greater, [a, b] => comparison depth op Number.greater a b
  | same, [a, b] => return .boolean (sameObject a b)
  | isPair, [v] => inquire fun s => .boolean (s.cell? v).isSome
  | isNull, [v] => return .boolean (v = .nil)
  | isSymbol, [v] => return .boolean (symbolic v)
  | op, args => throw (.operandCount op args.length)

/-- The built-in operations are functions of the host. -/
instance : HostFunctions Operation := ⟨run⟩

end MiniScheme.Operation
