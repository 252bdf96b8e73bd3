import MiniScheme.CommandLine

/-!
# `MiniScheme.Main`: the program

The outer layer: it reads the variables, the file or the lines of
standard input, and prints what the library says.
-/

set_option autoImplicit false

namespace MiniScheme.Main

open MiniScheme.CommandLine MiniScheme.Console

/-- Prints utterances in their order: reports to standard error, all else
to standard output. -/
def emit (us : List Utterance) : IO Unit := do
  let stdout ← IO.getStdout
  let stderr ← IO.getStderr
  for u in us do
    if u.channel = .report then
      stderr.putStr u.text
      stderr.flush
    else
      stdout.putStr u.text
      stdout.flush

/-- The status of an ending; a failure is printed first. -/
def statusOf : Ending → IO UInt32
  | .status code | .exit code => return code.toUInt32
  | .failure f => do
    IO.eprintln f.message
    return 1

/-- Prints an outcome. -/
def finish (o : Outcome) : IO UInt32 := do
  emit o.said
  statusOf o.ending

/-- The variables that settings are read from. -/
def surroundings : IO Variables := do
  let names := ["FEZ_LOG_LEVEL", "FEZ_RECURSION_LIMIT", "FEZ_PLACEHOLDERS"]
  let values ← names.mapM fun name => do return (name, ← IO.getEnv name)
  return fun name => (values.lookup name).join

/-- Prints what a console has said and forgets it. -/
def flush (st : Console.State) : IO Console.State := do
  emit st.said.reverse
  return { st with said := [] }

/-- Reads lines and takes them one at a time until the input ends. -/
partial def loop (job : Job) (interactive : Bool) (pending : String) (st : Console.State) :
    IO UInt32 := do
  emit ((promptStep interactive pending).map fun
    | .prompt text => ⟨.prompt, text⟩
    | _ => ⟨.prompt, ""⟩)
  let line ← (← IO.getStdin).getLine
  if line.isEmpty then
    let st ← if Text.isAllBlank pending then pure st
      else flush (st.step job.depth job.env (.chunk pending))
    statusOf (consoleEnding st.ended)
  else
    match accept job.depth pending line with
    | .pending source => loop job interactive source st
    | .tooDeep => statusOf (consoleEnding (some .tooDeep))
    | .chunk source =>
      let st ← flush (st.step job.depth job.env (.chunk source))
      if st.ended.isSome then statusOf (consoleEnding st.ended)
      else loop job interactive "" st

/-- What kept a file from being read. -/
def fileFault : IO.Error → FileFault
  | .inappropriateType _ code _ => if code = 21 then .isDirectory else .notDirectory
  | .invalidArgument .. => .nameTooLong
  | _ => .missing

/-- The text of a file. -/
def fileText (path : String) : IO (Except FileFault String) := do
  try return .ok (← IO.FS.readFile path)
  catch e => return .error (fileFault e)

/-- Runs a job. -/
def runJob (job : Job) : IO UInt32 := do
  match job.file with
  | some path =>
    match ← fileText path with
    | .ok text => finish (job.runFile text)
    | .error cause => finish (job.withoutFile path cause)
  | none =>
    let st ← flush (State.say [] { machine := job.machine })
    loop job (← (← IO.getStdin).isTty) "" st

end MiniScheme.Main

/-- Runs a file or a console, as the arguments say. -/
def main (arguments : List String) : IO UInt32 := do
  match MiniScheme.CommandLine.prepare arguments (← MiniScheme.Main.surroundings) with
  | .error outcome => MiniScheme.Main.finish outcome
  | .ok job => MiniScheme.Main.runJob job
