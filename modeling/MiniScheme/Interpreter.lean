import MiniScheme.Datum.Reader
import MiniScheme.Evaluation

/-!
# `MiniScheme.Interpreter`: programs as source text

`makeGlobal` builds a global frame: primitives first, then placeholders,
names bound to the symbol `void` so that programs can assign them.

`run` evaluates the data of a source text one after the other. A text is
read no further than it is evaluated, so a fault of the text arises only
after everything before it has been evaluated.
-/

set_option autoImplicit false

namespace MiniScheme

variable {F : Type}

/-- The deepest nesting that any limit allows; it bounds the space that an
endless recursion takes. -/
def maxNesting : Nat := 2000000

/-- The deepest nesting allowed under a limit on host calls, about three
of which go into one level. -/
def nesting (limit : Nat) : Nat := min (3 * limit / 10) maxNesting

/-- The longest path that a deep copy may follow under such a limit. -/
def copyNesting (limit : Nat) : Nat := limit / 7

/-- The limit on host calls that holds unless a setting says otherwise. -/
def defaultLimit : Nat := 10000

/-! ### The global frame -/

/-- Every operation as a primitive of its own name and arity. -/
def standardPrimitives : List Primitive :=
  Operation.all.map fun op => ⟨op.name, op.arity, op⟩

/-- The value of placeholders. -/
def placeholder : Value := .symbol "void"

/-- A new global frame. Of two bindings of one name the later one
counts. -/
def makeGlobal (primitives : List (Primitive F)) (placeholders : List String) :
    EvalOn F Ref := do
  let env ← change fun s => s.newFrame ⟨[], none⟩
  for p in primitives do
    let v ← change fun s => s.newPrimitive p
    change fun s => ((), s.bind env p.name v)
  for name in placeholders do
    change fun s => ((), s.bind env name placeholder)
  note fun s => .ok (.globalFrame ((s.frames[env]?.map fun f => f.bindings.length).getD 0))
  return env

/-! ### Programs -/

/-- Evaluates data one after the other and gives the last value; `result`
is the one before. -/
def evalData [HostFunctions F] (depth : Nat) (env : Ref) :
    (result : Value) → List Datum → EvalOn F Value
  | result, [] => return result
  | _, d :: ds => do
    let expr ← load d
    let result ← evaluate depth env expr
    evalData depth env result ds

/-- Evaluates a source text and gives the last value. -/
def run [HostFunctions F] (depth : Nat) (env : Ref) (source : String) : EvalOn F Value := do
  let (data, fault) := read depth source
  let result ← evalData depth env .emptySequence data
  match fault with
  | none => return result
  | some f => throw f

end MiniScheme
