import MiniScheme.Proofs.Actions

/-!
# `MiniScheme.Proofs.SyntaxTree`: expressions that are analysed once

The evaluator looks at the pairs of an expression every time it comes by. A
more usual interpreter looks at them once: it turns an expression into a
syntax tree, and then runs the tree. This file defines such an interpreter,
as a reference for the one that evaluates pairs.

* `Tree` are the expressions. Data of quotations are kept by reference, and
  so are parameters and constants. An expression that is malformed is a tree
  that fails when it is run.
* `analyse` makes the tree of an expression, from the pairs of the store.
* `execute` runs a tree. Variables, data and primitives are those of the
  evaluator, on the same store. The body of a closure is a row of trees, so
  a `TreeMachine` keeps these beside the store.

`replies` and `conversation` say what either interpreter answers to source texts.
-/

set_option autoImplicit false

namespace MiniScheme

/-! ### Trees -/

/-- What is wrong with an expression. Values that a message shows are kept
as values, because they can change before the message is worded. -/
inductive Flaw where
  | fault (f : Fault)
  /-- An assignment to something that is no symbol. -/
  | target (v : Value)
  /-- A call whose operands are no proper list. -/
  | call (expr : Value)
  /-- Something that is no expression. -/
  | atom (v : Value)

/-- Fails for a flaw. -/
def Flaw.fail (depth : Nat) : Flaw → Eval Value
  | .fault f => throw f
  | .target v => failShowing depth .assignmentTarget v
  | .call expr => failShowing depth .improperCall expr
  | .atom v => refuse depth v

/-- An expression, analysed. -/
inductive Tree where
  | variable (name : String)
  | constant (v : Value)
  | quotation (datum : Value)
  | conditional (test consequent : Tree) (alternative : Option Tree)
  | sequence (items : List Tree)
  | assignment (name : String) (value : Tree)
  | abstraction (formals : Value) (body : List Tree)
  | call (head : Tree) (operands : List Tree)
  /-- A call that fails as soon as its head is evaluated. -/
  | flawedCall (head : Tree) (flaw : Flaw)
  /-- An expression that fails. -/
  | flawed (flaw : Flaw)

/-! ### Analysis -/

/-- The tree of a special form with these operands, whose parts `part`
analyses. -/
def Tree.ofForm (part : Value → Tree) (form : Form) (operands : List Value) : Tree :=
  match form with
  | .quote =>
    match operands with
    | [d] => .quotation d
    | _ => .flawed (.fault (.arity form.name (some 1) (some operands.length)))
  | .conditional =>
    match operands with
    | [test, consequent] => .conditional (part test) (part consequent) none
    | [test, consequent, alternative] =>
      .conditional (part test) (part consequent) (some (part alternative))
    | _ => .flawed (.fault (.arity "if requires 2 or 3 operands" none (some operands.length)))
  | .begin => .sequence (operands.map part)
  | .assignment =>
    match operands with
    | [.symbol name, e] => .assignment name (part e)
    | [target, _] => .flawed (.target target)
    | _ => .flawed (.fault (.arity form.name (some 2) (some operands.length)))
  | .lambda =>
    match operands with
    | formals :: body => .abstraction formals (body.map part)
    | [] => .flawed (.fault (.arity "lambda requires a parameter list" none none))

namespace Store

/-- Analyses a special form whose parts `part` analyses. -/
def analyseForm (s : Store) (part : Value → Tree) (form : Form) (tail : Value) : Tree :=
  match s.spine? tail with
  | none => .flawed (.fault .endless)
  | some (operands, last) =>
    if last ≠ .nil then .flawed (.fault (.improperForm form.name)) else .ofForm part form operands

/-- Analyses a call whose parts `part` analyses. -/
def analyseCall (s : Store) (part : Value → Tree) (expr head tail : Value) : Tree :=
  match s.spine? tail with
  | none => .flawedCall (part head) (.fault .endless)
  | some (operands, last) =>
    if last ≠ .nil then .flawedCall (part head) (.call expr)
    else .call (part head) (operands.map part)

/-- Analyses an expression whose parts `part` analyses. -/
def analyseWith (s : Store) (part : Value → Tree) (expr : Value) : Tree :=
  match expr with
  | .symbol name => .variable name
  | .number _ | .text .. | .boolean _ | .vector _ => .constant expr
  | .pair _ =>
    match s.cell? expr with
    | some c =>
      match Form.ofHead? c.car with
      | some form => s.analyseForm part form c.cdr
      | none => s.analyseCall part expr c.car c.cdr
    | none => .flawed (.atom expr)
  | _ => .flawed (.atom expr)

end Store

/-- Pairs are ranked by their age, behind all other values. -/
def Value.rank : Value → Nat
  | .pair r => r + 1
  | _ => 0

/-- The tree of an expression. A reader makes the parts of an expression
before the whole, so a part that is younger would lie on a cycle. -/
def Store.analyse (s : Store) (expr : Value) : Tree :=
  s.analyseWith
    (fun e => if e.rank < expr.rank then s.analyse e else .flawed (.fault .endless)) expr
termination_by expr.rank

/-- The trees of a body. -/
def Store.analyseBody (s : Store) (body : Value) : List Tree :=
  (((s.spine? body).map Prod.fst).getD []).map s.analyse

/-! ### Execution -/

/-- A machine, with the analysed bodies of its closures in their order. The
closures of the store itself have empty bodies. -/
structure TreeMachine where
  machine : Machine
  bodies : Array (List Tree)

/-- A computation on such a machine. -/
abbrev TreeEval := EStateM Fault TreeMachine

/-- The result with another machine. -/
def onMachine {σ τ α : Type} (g : σ → τ) : EStateM.Result Fault σ α → EStateM.Result Fault τ α
  | .ok a m => .ok a (g m)
  | .error f m => .error f (g m)

/-- A computation that has nothing to do with bodies. -/
def lift {α : Type} (x : Eval α) : TreeEval α := fun t =>
  onMachine (fun m => { t with machine := m }) (x t.machine)

/-- Runs a tree in an environment. -/
abbrev TreeEvaluator := (env : Ref) → (tree : Tree) → TreeEval Value

/-- Runs trees from left to right and gives the last value; `result` is the
one before. -/
def executeItems (ex : TreeEvaluator) (env : Ref) : (result : Value) → List Tree → TreeEval Value
  | result, [] => return result
  | _, tree :: trees => do
    let v ← ex env tree
    executeItems ex env v trees

/-- Runs operands from left to right; `done` are the values before, the last
one first. -/
def executeOperands (ex : TreeEvaluator) (env : Ref) :
    (done : List Value) → List Tree → TreeEval (List Value)
  | done, [] => return done.reverse
  | done, tree :: trees => do
    let v ← ex env tree
    executeOperands ex env (v :: done) trees

/-- Applies a procedure to values. -/
def applyTree (depth : Nat) (ex : TreeEvaluator) (fn : Value) (args : List Value) :
    TreeEval Value := do
  match fn with
  | .closure r =>
    let t ← get
    match t.machine.store.closures[r]?, t.bodies[r]? with
    | some k, some body =>
      let env ← lift (enterClosure depth fn k args)
      executeItems ex env .emptySequence body
    | _, _ => lift (failShowing depth .notCallable fn)
  | fn => lift (applyWith depth idle fn args)

/-- A new closure over the current environment. -/
def makeTreeClosure (depth : Nat) (env : Ref) (formals : Value) (body : List Tree) :
    TreeEval Value := do
  modify fun t => { t with bodies := t.bodies.push body }
  lift (makeClosure depth env formals .nil)

/-- Runs a tree whose parts `ex` runs. -/
def executeWith (depth : Nat) (ex : TreeEvaluator) : TreeEvaluator := fun env tree => do
  match tree with
  | .variable name => lift (lookup env name)
  | .constant v | .quotation v => return v
  | .conditional test consequent alternative =>
    if (← ex env test).isTrue then ex env consequent
    else
      match alternative with
      | some e => ex env e
      | none => return .boolean false
  | .sequence items => executeItems ex env .emptySequence items
  | .assignment name value =>
    let v ← ex env value
    lift (assign env name v)
  | .abstraction formals body => makeTreeClosure depth env formals body
  | .call head operands =>
    let fn ← ex env head
    let args ← executeOperands ex env [] operands
    applyTree depth ex fn args
  | .flawedCall head flaw =>
    let _ ← ex env head
    lift (flaw.fail depth)
  | .flawed flaw => lift (flaw.fail depth)

/-- Runs a tree with at most `depth` levels of nesting. -/
def execute : (depth : Nat) → TreeEvaluator
  | 0 => fun _ _ => throw .tooDeep
  | depth + 1 => executeWith depth (execute depth)

/-! ### Conversations -/

/-- Evaluates a datum. -/
def evalDatum (depth : Nat) (env : Ref) (d : Datum) : Eval Value := do
  let expr ← load d
  evaluate depth env expr

/-- Analyses a datum and then runs it. -/
def executeDatum (depth : Nat) (env : Ref) (d : Datum) : TreeEval Value := do
  let expr ← lift (load d)
  let t ← get
  execute depth env (t.machine.store.analyse expr)

/-- The reply to an expression: the written value, or the fault. -/
abbrev Reply := Except Fault (Except Fault String)

section

variable {σ : Type} (answer : Datum → EStateM Fault σ Value)
  (written : σ → Value → Except Fault String)

/-- The replies to the data of a text, up to the first fault, and what they
leave. The fault of the text itself comes last. -/
def replies (fault : Option Fault) : List Datum → σ → List Reply × σ
  | [], s => (fault.toList.map .error, s)
  | d :: data, s =>
    match answer d s with
    | .ok v s =>
      let (rest, t) := replies fault data s
      (.ok (written s v) :: rest, t)
    | .error f s => ([.error f], s)

/-- The replies to source texts, one after the other. -/
def conversation (depth : Nat) : List String → σ → List (List Reply) × σ
  | [], s => ([], s)
  | source :: sources, s =>
    let (data, fault) := read depth source
    let (first, s) := replies answer written fault data s
    let (others, s) := conversation depth sources s
    (first :: others, s)

end

/-- The replies of the evaluator; values are written with at most `shown`
levels of nesting. -/
def cellConversation (depth shown : Nat) (env : Ref) (sources : List String) (m : Machine) :
    List (List Reply) × Machine :=
  conversation (evalDatum depth env) (fun m v => m.store.write shown v) depth sources m

/-- The replies of the interpreter for trees. -/
def treeConversation (depth shown : Nat) (env : Ref) (sources : List String) (t : TreeMachine) :
    List (List Reply) × TreeMachine :=
  conversation (executeDatum depth env) (fun t v => t.machine.store.write shown v) depth sources t

end MiniScheme
