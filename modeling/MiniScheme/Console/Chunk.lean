import MiniScheme.Datum.Reader

/-!
# `MiniScheme.Console.Chunk`: input cut into complete pieces

Console input comes in lines. Lines are put together until they read as
complete data, or have a fault that no further line could mend; that is a
chunk. What is left when the input ends is a chunk too, unless it is
blank.

`accept` takes one line; `steps` lists what happens over a whole input:
the prompts and the chunks, in their order.
-/

set_option autoImplicit false

namespace MiniScheme.Console

/-- The lines of a text, each with its newline; `line` is the one that is
being read, the last character first. -/
def linesFrom (line : List Char) : List Char → List String
  | [] => if line.isEmpty then [] else [Scan.textOf line]
  | c :: cs =>
    if c = '\n' then Scan.textOf (c :: line) :: linesFrom [] cs else linesFrom (c :: line) cs

/-- The lines of a text, each with its newline; only the last one may
have none. -/
def lines (input : String) : List String := linesFrom [] input.toList

/-- What a line does to the text that is pending. -/
inductive Acceptance where
  /-- The text is complete now. -/
  | chunk (source : String)
  /-- More lines are needed. -/
  | pending (source : String)
  /-- The text is nested too deeply to be read. -/
  | tooDeep
deriving DecidableEq

/-- Adds a line to the pending text. -/
def accept (depth : Nat) (pending line : String) : Acceptance :=
  let source := pending ++ line
  match (read depth source).2 with
  | some (.reading e) => if e.isIncomplete then .pending source else .chunk source
  | some .tooDeep => .tooDeep
  | _ => .chunk source

/-- The prompt before a line; another one inside a chunk. -/
def prompt (pending : String) : String := if pending.isEmpty then "fez> " else "...> "

/-- Something that a console does with its input. -/
inductive Step where
  | prompt (text : String)
  | chunk (source : String)
  | tooDeep
deriving DecidableEq

/-- The prompt before a line, where there are prompts. -/
def promptStep (interactive : Bool) (pending : String) : List Step :=
  if interactive then [.prompt (prompt pending)] else []

/-- What a console does with the given lines after the pending text. -/
def stepsFrom (depth : Nat) (interactive : Bool) (pending : String) : List String → List Step
  | [] =>
    promptStep interactive pending ++
      (if Text.isAllBlank pending then [] else [.chunk pending])
  | line :: rest =>
    promptStep interactive pending ++
      match accept depth pending line with
      | .chunk source => .chunk source :: stepsFrom depth interactive "" rest
      | .pending source => stepsFrom depth interactive source rest
      | .tooDeep => [.tooDeep]

/-- What a console does with an input. -/
def steps (depth : Nat) (interactive : Bool) (input : String) : List Step :=
  stepsFrom depth interactive "" (lines input)

end MiniScheme.Console
