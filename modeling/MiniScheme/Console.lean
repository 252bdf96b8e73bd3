import MiniScheme.Console.Chunk
import MiniScheme.Interpreter

/-!
# `MiniScheme.Console`: read, evaluate, print

A console evaluates the data of each chunk of its input and prints every
result that is a value. A fault is reported and ends its chunk; the
console then goes on with the next one. Only some limits end the console
itself.

What a console says is kept as a list of utterances in their order. Each
has a channel, so that prompts, results and reports can be told apart.
-/

set_option autoImplicit false

namespace MiniScheme.Console

/-- Where an utterance goes. -/
inductive Channel where
  | prompt
  | result
  | report
deriving DecidableEq

/-- A text and where it goes. -/
structure Utterance where
  channel : Channel
  text : String
deriving DecidableEq

/-- All that was said on the given channels. -/
def said (channels : List Channel) (us : List Utterance) : String :=
  us.foldl (fun out u => if u.channel ∈ channels then out ++ u.text else out) ""

/-- The report of a fault. -/
def reportOf (message : String) : Utterance := ⟨.report, "error: " ++ message ++ "\n"⟩

/-- The line of a result. -/
def resultOf (text : String) : Utterance := ⟨.result, text ++ "\n"⟩

/-- Takes the events out of the journal, as reports in their order. -/
def drain (m : Machine) : List Utterance × Machine :=
  match m.journal with
  | none => ([], m)
  | some events =>
    ((events.reverse.map fun e => ⟨.report, e.line⟩), { m with journal := some [] })

/-- Evaluates a datum and gives the external form of the result, unless
it has no value. -/
def evalPrint (depth : Nat) (env : Ref) (d : Datum) : Eval (Option String) := do
  let expr ← load d
  let v ← evaluate depth env expr
  if v = .emptySequence then return none
  else
    let text ← examine fun s => s.write depth v
    return some text

/-- Where a console stands: what it has said, the last utterance first,
its machine, and the fault that ended it, if one did. -/
structure State where
  said : List Utterance := []
  machine : Machine
  ended : Option Fault := none

/-- Says something after the events that are in the journal. -/
def State.say (us : List Utterance) : State → State
  | ⟨said, m, ended⟩ =>
    let (events, m) := drain m
    ⟨us.reverse ++ (events.reverse ++ said), m, ended⟩

/-- Reports a fault, or ends with it. -/
def State.fail (f : Fault) (st : State) : State :=
  match f.report? with
  | some message => st.say [reportOf message]
  | none => { st.say [] with ended := some f }

/-- Evaluates and prints the data of a chunk, up to its first fault. -/
def evalChunk (depth : Nat) (env : Ref) (fault : Option Fault) : State → List Datum → State
  | st, [] =>
    match fault with
    | none => st
    | some f => st.fail f
  | ⟨said, m, ended⟩, d :: ds =>
    match evalPrint depth env d m with
    | .ok text m =>
      let st := State.say (text.map resultOf).toList ⟨said, m, ended⟩
      evalChunk depth env fault st ds
    | .error f m => State.fail f ⟨said, m, ended⟩

/-- Takes one step. -/
def State.step (depth : Nat) (env : Ref) (st : State) : Step → State
  | .prompt text => st.say [⟨.prompt, text⟩]
  | .chunk source =>
    let (data, fault) := read depth source
    evalChunk depth env fault st data
  | .tooDeep => { st with ended := some .tooDeep }

/-- Takes steps until one ends the console. -/
def State.steps (depth : Nat) (env : Ref) (st : State) : List Step → State
  | [] => st
  | s :: rest =>
    let st := st.step depth env s
    if st.ended.isSome then st else st.steps depth env rest

/-- Runs a console over an input. -/
def run (depth : Nat) (env : Ref) (interactive : Bool) (input : String) (m : Machine) : State :=
  State.steps depth env { machine := m } (steps depth interactive input)

end MiniScheme.Console
