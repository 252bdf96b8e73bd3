import MiniScheme.Text.Quoted
import MiniScheme.Value

/-!
# `MiniScheme.Journal`: what an evaluation reports about itself

On request an evaluation keeps a journal of events: closures made and
entered, primitives called, frames extended and variables assigned.
`Event.line` words an event as one line.
-/

set_option autoImplicit false

namespace MiniScheme

/-- Something worth a line in the journal. Values are kept as texts,
because they can change later. -/
inductive Event where
  | limitSet (limit : Nat)
  | globalFrame (bindings : Nat)
  | closureMade (formals : String) (frame : Ref)
  | assigned (name : String) (frame : Ref)
  | extended (frame : Ref) (bindings : String)
  | primitiveCalled (name : String) (arguments : Nat)
  | closureEntered (closure : String) (frame : Ref)
deriving DecidableEq

namespace Event

/-- The part of the interpreter that an event comes from. -/
def origin : Event → String
  | limitSet _ => "fez.repl"
  | globalFrame _ => "fez.builtin.env_builtin"
  | closureMade .. => "fez.types.closure"
  | assigned .. | extended .. => "fez.types.environment"
  | primitiveCalled .. | closureEntered .. => "fez.evaluation.apply"

/-- The wording of an event. -/
def message : Event → String
  | limitSet limit => "recursion limit set to " ++ toString limit
  | globalFrame n => "global environment built with " ++ toString n ++ " binding(s)"
  | closureMade formals frame =>
    "closure created: formals=" ++ formals ++ " in frame " ++ Text.hex 1 frame
  | assigned name frame => "update " ++ name ++ " in frame " ++ Text.hex 1 frame
  | extended frame bindings => "extend frame " ++ Text.hex 1 frame ++ " with " ++ bindings
  | primitiveCalled name n =>
    "primitive " ++ name ++ " called with " ++ toString n ++ " argument(s)"
  | closureEntered closure frame =>
    "closure " ++ closure ++ " entered in frame " ++ Text.hex 1 frame

/-- An event as a line of the journal. -/
def line (e : Event) : String := "DEBUG " ++ e.origin ++ ": " ++ e.message ++ "\n"

end Event

end MiniScheme
