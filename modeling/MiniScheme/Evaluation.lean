import MiniScheme.Environment
import MiniScheme.Operation.Run

/-!
# `MiniScheme.Evaluation`: expressions and procedure calls

Expressions are values. A symbol is a variable; numbers, strings,
booleans and vectors evaluate to themselves; a pair is a special form if
its head names one, and a call otherwise. Nothing else can be evaluated.

A call evaluates its head, then takes its operands, evaluates them from
left to right, and applies the procedure. What a primitive does with its
arguments is up to the host. A sequence walks the pairs of its body as
they are at each step, so a body that is changed while it runs is seen as
changed.

`evaluateWith` evaluates an expression whose parts are evaluated by a
given function, and `evaluate` closes that recursion over the nesting
that it may use up. Calls in tail position nest like all others.
-/

set_option autoImplicit false

namespace MiniScheme

/-- Evaluates an expression in an environment. -/
abbrev Evaluator (F : Type := Operation) := (env : Ref) → (expr : Value) → EvalOn F Value

variable {F : Type}

/-! ### Sequences and operands -/

/-- More pairs than any body has that is not circular. -/
def walkLimit : Nat := Nat.pow 2 32

/-- Evaluates a body from left to right for less than `fuel` pairs and
gives the last value; `result` is the one before. -/
def evalBody (ev : Evaluator F) (env : Ref) : (fuel : Nat) → (result body : Value) → EvalOn F Value
  | 0, _, _ => throw .endless
  | fuel + 1, result, body => do
    match ← inquire fun s => s.cell? body with
    | none => return result
    | some c =>
      let result ← ev env c.car
      let rest ← inquire fun s => s.cdrOf body
      evalBody ev env fuel result rest

/-- Evaluates a body from left to right and gives the last value. -/
def evalSequence (ev : Evaluator F) (env : Ref) (body : Value) : EvalOn F Value := do
  let cells ← inquire fun s => s.cells.size
  evalBody ev env (cells + walkLimit) .emptySequence body

/-- Evaluates operands from left to right; `done` are the values before,
the last one first. -/
def evalOperands (ev : Evaluator F) (env : Ref) :
    (done : List Value) → List Value → EvalOn F (List Value)
  | done, [] => return done.reverse
  | done, e :: es => do
    let v ← ev env e
    evalOperands ev env (v :: done) es

/-! ### Procedures -/

/-- Applies a primitive to the number of arguments it is declared for. -/
def applyPrimitive [HostFunctions F] (depth : Nat) (p : Primitive F) (args : List Value) :
    EvalOn F Value := do
  if (args.length : Int) ≠ p.arity then throw (.arity p.name (some p.arity) (some args.length))
  note fun _ => .ok (.primitiveCalled p.name args.length)
  HostFunctions.run depth p.operation args

/-- Runs the body of a closure in a new frame inside the one it was made
in. -/
def applyClosure (depth : Nat) (ev : Evaluator F) (fn : Value) (c : Closure) (args : List Value) :
    EvalOn F Value := do
  let env ← extend depth c.frame c.formals args
  note fun s => do
    let shown ← s.display depth fn
    .ok (.closureEntered shown env)
  evalSequence ev env c.body

/-- Applies a procedure to values. Only primitives and closures can be
applied. -/
def applyWith [HostFunctions F] (depth : Nat) (ev : Evaluator F) (fn : Value)
    (args : List Value) : EvalOn F Value := do
  match fn with
  | .primitive r =>
    match ← inquire fun s => s.primitives[r]? with
    | some p => applyPrimitive depth p args
    | none => failShowing depth .notCallable fn
  | .closure r =>
    match ← inquire fun s => s.closures[r]? with
    | some c => applyClosure depth ev fn c args
    | none => failShowing depth .notCallable fn
  | fn => failShowing depth .notCallable fn

/-! ### Special forms -/

/-- The special forms. -/
inductive Form where
  | quote
  | conditional
  | begin
  | assignment
  | lambda
deriving DecidableEq

/-- The name that makes a pair a special form. -/
def Form.name : Form → String
  | .quote => "quote"
  | .conditional => "if"
  | .begin => "begin"
  | .assignment => "set!"
  | .lambda => "lambda"

/-- All special forms. -/
def Form.all : List Form := [.quote, .conditional, .begin, .assignment, .lambda]

/-- The special form that the head of a pair names. -/
def Form.ofHead? : Value → Option Form
  | .symbol name => Form.all.find? fun f => f.name == name
  | _ => none

/-- The operands of a special form, which have to be a proper list. -/
def formOperands (form : Form) (tail : Value) : EvalOn F (List Value) := do
  let (operands, last) ← spine tail
  if last = .nil then return operands else throw (.improperForm form.name)

/-- A new closure over the current environment. -/
def makeClosure (depth : Nat) (env : Ref) (formals body : Value) : EvalOn F Value := do
  let v ← change fun s => s.newClosure ⟨formals, body, env⟩
  note fun s => do
    let shown ← s.display depth formals
    .ok (.closureMade shown env)
  return v

/-- Evaluates a special form. All checks of its shape come before any
evaluation. -/
def evalForm (depth : Nat) (ev : Evaluator F) (env : Ref) (form : Form) (tail : Value) :
    EvalOn F Value := do
  let operands ← formOperands form tail
  match form with
  | .quote =>
    match operands with
    | [d] => return d
    | _ => throw (.arity form.name (some 1) (some operands.length))
  | .conditional =>
    match operands with
    | [test, consequent] =>
      if (← ev env test).isTrue then ev env consequent else return .boolean false
    | [test, consequent, alternative] =>
      if (← ev env test).isTrue then ev env consequent else ev env alternative
    | _ => throw (.arity "if requires 2 or 3 operands" none (some operands.length))
  | .begin => evalSequence ev env tail
  | .assignment =>
    match operands with
    | [.symbol name, e] =>
      let v ← ev env e
      assign env name v
    | [target, _] => failShowing depth .assignmentTarget target
    | _ => throw (.arity form.name (some 2) (some operands.length))
  | .lambda =>
    match ← inquire fun s => s.cell? tail with
    | some c => makeClosure depth env c.car c.cdr
    | none => throw (.arity "lambda requires a parameter list" none none)

/-! ### Expressions -/

/-- Evaluates a call. -/
def evalCall [HostFunctions F] (depth : Nat) (ev : Evaluator F) (env : Ref)
    (expr head tail : Value) : EvalOn F Value := do
  let fn ← ev env head
  let (operands, last) ← spine tail
  if last ≠ .nil then failShowing depth .improperCall expr
  else
    let args ← evalOperands ev env [] operands
    applyWith depth ev fn args

/-- Fails because a value is no expression. -/
def refuse (depth : Nat) (expr : Value) : EvalOn F Value := do
  let shown ← examine fun s => s.inspect depth expr
  throw (.unevaluable shown)

/-- Evaluates an expression whose parts `ev` evaluates. -/
def evaluateWith [HostFunctions F] (depth : Nat) (ev : Evaluator F) :
    Evaluator F := fun env expr => do
  match expr with
  | .symbol name => lookup env name
  | .number _ | .text .. | .boolean _ | .vector _ => return expr
  | .pair _ =>
    match ← inquire fun s => s.cell? expr with
    | some c =>
      match Form.ofHead? c.car with
      | some form => evalForm depth ev env form c.cdr
      | none => evalCall depth ev env expr c.car c.cdr
    | none => refuse depth expr
  | _ => refuse depth expr

/-- Evaluates an expression with at most `depth` levels of nesting. -/
def evaluate [HostFunctions F] : (depth : Nat) → Evaluator F
  | 0 => fun _ _ => throw .tooDeep
  | depth + 1 => evaluateWith depth (evaluate depth)

/-- Applies a procedure with at most `depth` levels of nesting. -/
def apply [HostFunctions F] (depth : Nat) (fn : Value) (args : List Value) : EvalOn F Value :=
  applyWith depth (evaluate depth) fn args

end MiniScheme
