import MiniScheme.CommandLine.Arguments
import MiniScheme.Console
import MiniScheme.FileTree
import MiniScheme.Settings

/-!
# `MiniScheme.CommandLine`: the program as it is called

`prepare` turns arguments and settings into a `Job`: a machine with its
global frame, and the file to run, if any. `Job.runFile` evaluates the
text of a file and prints its last value; `Job.runConsole` is a console
over an input. Both end in an `Outcome`: what was said, and how it ended.
-/

set_option autoImplicit false

namespace MiniScheme.CommandLine

open Console (Utterance)

/-- A failure that the program does not handle. -/
inductive Failure where
  | unknownLevel (name : String)
  | unreadable (path : String) (cause : FileFault)
  | limitTooLarge
  | fault (f : Fault)
deriving DecidableEq

/-- The wording of a failure. -/
def Failure.message : Failure → String
  | unknownLevel name => "Unknown level: " ++ Text.quoted name
  | unreadable path cause => cause.message path
  | limitTooLarge => "Python int too large to convert to C int"
  | fault f => f.message

/-- How the program ends. -/
inductive Ending where
  /-- It ran to its end, with this status. -/
  | status (code : Nat)
  /-- The arguments alone decided the status. -/
  | exit (code : Nat)
  | failure (f : Failure)
deriving DecidableEq

/-- What the program said, in order, and how it ended. -/
structure Outcome where
  said : List Utterance
  ending : Ending

/-- Everything that is set up before a program is read. -/
structure Job where
  depth : Nat
  env : Ref
  machine : Machine
  file : Option String

/-! ### Setting up -/

/-- The smallest limit under which the interpreter itself can be set
up. -/
def minLimit : Nat := 30

/-- The largest limit that can be set. -/
def maxLimit : Nat := Nat.pow 2 31 - 1

/-- Sets up the machine under a limit. -/
def makeJob (vars : Variables) (journal : Bool) (limit : Nat) (file : Option String) :
    Except Failure Job :=
  if maxLimit < limit then .error .limitTooLarge
  else if limit < minLimit then .error (.fault .tooDeep)
  else
    let m : Machine := { journal := if journal then some [.limitSet limit] else none }
    match makeGlobal standardPrimitives (Settings.placeholders vars) m with
    | .ok env m => .ok { depth := nesting limit, env, machine := m, file }
    | .error f _ => .error (.fault f)

/-- Turns arguments and settings into a job, or into the outcome that they
alone decide. A flag settles the level before the settings are asked. -/
def prepare (arguments : List String) (vars : Variables) : Except Outcome Job :=
  match parse arguments with
  | .error r => .error ⟨[⟨.report, r.text⟩], .exit 2⟩
  | .ok .help => .error ⟨[⟨.result, helpText⟩], .exit 0⟩
  | .ok (.run verbose file) =>
    let level := Settings.level vars
    match if verbose then some true else Settings.keepsJournal? level with
    | none => .error ⟨[], .failure (.unknownLevel level)⟩
    | some journal =>
      match makeJob vars journal ((Settings.limit? vars).getD defaultLimit) file with
      | .ok job => .ok job
      | .error f => .error ⟨[], .failure f⟩

/-! ### Running -/

/-- A text with every end of line as a single newline. -/
def unifyLines : List Char → List Char
  | [] => []
  | '\r' :: '\n' :: cs => '\n' :: unifyLines cs
  | '\r' :: cs => '\n' :: unifyLines cs
  | c :: cs => c :: unifyLines cs

/-- The last words of a machine, after the events in its journal. -/
def conclude (m : Machine) (us : List Utterance) (ending : Ending) : Outcome :=
  ⟨(Console.drain m).1 ++ us, ending⟩

/-- Evaluates the text of the file and prints the last value. -/
def Job.runFile (job : Job) (text : String) : Outcome :=
  let source := String.ofList (unifyLines text.toList)
  match run job.depth job.env source job.machine with
  | .error f m =>
    match f.report? with
    | some message => conclude m [Console.reportOf message] (.status 1)
    | none => conclude m [] (.failure (.fault f))
  | .ok .emptySequence m => conclude m [] (.status 0)
  | .ok v m =>
    match m.store.write job.depth v with
    | .ok shown => conclude m [Console.resultOf shown] (.status 0)
    | .error f => conclude m [] (.failure (.fault f))

/-- The file cannot be read. -/
def Job.withoutFile (job : Job) (path : String) (cause : FileFault) : Outcome :=
  conclude job.machine [] (.failure (.unreadable path cause))

/-- How a console ended. -/
def consoleEnding : Option Fault → Ending
  | none => .status 0
  | some f => .failure (.fault f)

/-- Runs a console over an input. -/
def Job.runConsole (job : Job) (interactive : Bool) (input : String) : Outcome :=
  let st := (Console.run job.depth job.env interactive input job.machine).say []
  ⟨st.said.reverse, consoleEnding st.ended⟩

/-- The program as a function of the files that there are and of its
whole input. -/
def execute (arguments : List String) (vars : Variables) (tree : FileTree) (input : String) :
    Outcome :=
  match prepare arguments vars with
  | .error outcome => outcome
  | .ok job =>
    match job.file with
    | none => job.runConsole false input
    | some path =>
      match tree.read path with
      | .ok text => job.runFile text
      | .error cause => job.withoutFile path cause

end MiniScheme.CommandLine
