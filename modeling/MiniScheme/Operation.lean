/-!
# `MiniScheme.Operation`: the built-in operations

The operations that primitives are made of: on pairs, on numbers, and on
identity and kind. `Operation.all` lists them in the order in which a
global environment binds them, with their `name` and `arity`.
-/

set_option autoImplicit false

namespace MiniScheme

/-- A built-in operation. -/
inductive Operation where
  | cons
  | car
  | cdr
  | setCar
  | setCdr
  | add
  | sub
  | mul
  | equal
  | less
  | greater
  | same
  | isPair
  | isNull
  | isSymbol
deriving DecidableEq

namespace Operation

/-- All operations, in the order of their bindings. -/
def all : List Operation :=
  [cons, car, cdr, setCar, setCdr, add, sub, mul, equal, less, greater, same,
   isPair, isNull, isSymbol]

/-- The name by which programs and messages know an operation. -/
def name : Operation → String
  | cons => "cons"
  | car => "car"
  | cdr => "cdr"
  | setCar => "set-car!"
  | setCdr => "set-cdr!"
  | add => "+"
  | sub => "-"
  | mul => "*"
  | equal => "="
  | less => "<"
  | greater => ">"
  | same => "eq?"
  | isPair => "pair?"
  | isNull => "null?"
  | isSymbol => "symbol?"

/-- The number of arguments. -/
def arity : Operation → Nat
  | car | cdr | isPair | isNull | isSymbol => 1
  | _ => 2

/-- The operation of a name. -/
def ofName? (n : String) : Option Operation := all.find? fun op => op.name == n

end Operation

end MiniScheme
