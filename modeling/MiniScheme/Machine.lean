import MiniScheme.Datum
import MiniScheme.Fault
import MiniScheme.Journal
import MiniScheme.Store
import MiniScheme.Store.Load
import MiniScheme.Store.Printer

/-!
# `MiniScheme.Machine`: the state of a running program

A machine is a store and, if one is kept, a journal. `EvalOn F` is the
type of computations on it: they end in a value or a fault and in either
case leave a machine, so what was done before a fault stays done. `Eval`
is the case of primitives that are built-in operations.

The three ways to touch the machine are `examine`, which reads the store
and may fail, `change`, which alters it and cannot, and `note`, which
adds an event to the journal.
-/

set_option autoImplicit false

namespace MiniScheme

/-- A store, and the journal if one is kept, the last event first. -/
structure Machine (F : Type := Operation) where
  store : Store F := {}
  journal : Option (List Event) := none
deriving DecidableEq

/-- A computation that can fail and always leaves a machine; the primitives
of the machine are functions of the host from `F`. -/
abbrev EvalOn (F : Type) := EStateM Fault (Machine F)

/-- A computation where primitives are built-in operations. -/
abbrev Eval := EvalOn Operation

variable {F : Type}

/-- Reads the store. -/
def examine {α : Type} (f : Store F → Except Fault α) : EvalOn F α := fun m =>
  match f m.store with
  | .ok a => .ok a m
  | .error e => .error e m

/-- Reads the store; this cannot fail. -/
@[inline] def inquire {α : Type} (f : Store F → α) : EvalOn F α := fun m => .ok (f m.store) m

/-- Alters the store. -/
@[inline] def change {α : Type} (f : Store F → α × Store F) : EvalOn F α :=
  fun ⟨store, journal⟩ =>
    match f store with
    | (a, store) => .ok a ⟨store, journal⟩

/-- Adds an event to the journal, if one is kept. An event that has no
text for its many digits is left out. -/
def note (event : Store F → Except Fault Event) : EvalOn F Unit := fun m =>
  match m.journal with
  | none => .ok () m
  | some events =>
    match event m.store with
    | .ok e => .ok () { m with journal := some (e :: events) }
    | .error .tooDeep => .error .tooDeep m
    | .error _ => .ok () m

/-- Fails with a fault that names the text of a value. -/
def failShowing {α : Type} (depth : Nat) (fault : String → Fault) (v : Value) :
    EvalOn F α := do
  let shown ← examine fun s => s.display depth v
  throw (fault shown)

/-- Puts a datum into the store. -/
def load (d : Datum) : EvalOn F Value := change fun s => s.load d

/-- Follows a chain of pairs to its end. -/
def spine (v : Value) : EvalOn F (List Value × Value) := examine fun s =>
  match s.spine? v with
  | some split => .ok split
  | none => .error .endless

/-- What the functions of the host do. Each takes a row of arguments and the
nesting that it may use up. -/
class HostFunctions (F : Type) where
  run (depth : Nat) (f : F) (args : List Value) : EvalOn F Value

end MiniScheme
