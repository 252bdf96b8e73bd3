import MiniScheme.Text.DecimalDigit
import MiniScheme.Text.Quoted

/-!
# `MiniScheme.CommandLine.Arguments`: what the command line asks for

There are two flags, each with a short and a long name, and one optional
operand, the file. Long names may be cut short as long as one name is
left that fits, and short ones may stand together behind one dash. All
arguments after `--` are operands, and so are a single dash, negative
numbers, and arguments with a space that name no flag.

Arguments are first told apart, which fails for an ambiguous flag, and
then taken in their order: help ends the matter at once, a flag with a
value is an error at once, and what is not recognized is an error at the
end. What stands behind a short name is read as more short names, with or
without an equals sign before them; the first character that is none makes
all from there on the value of the flag before it.
-/

set_option autoImplicit false

namespace MiniScheme.CommandLine

/-- A flag of the command line. -/
inductive Flag where
  | help
  | verbose
deriving DecidableEq

namespace Flag

/-- The letter of the short name. -/
def letter : Flag → Char
  | help => 'h'
  | verbose => 'v'

/-- The long name. -/
def long : Flag → String
  | help => "--help"
  | verbose => "--verbose"

/-- Both flags. -/
def all : List Flag := [help, verbose]

/-- The short name. -/
def short (f : Flag) : String := String.ofList ['-', f.letter]

/-- The flag of a letter. -/
def ofLetter? (c : Char) : Option Flag := all.find? fun f => f.letter == c

/-- The flag of a full name. -/
def ofName? (name : String) : Option Flag := all.find? fun f => f.short == name || f.long == name

end Flag

/-- What ends the reading of arguments. -/
inductive Refusal where
  /-- The names that an abbreviation could stand for. -/
  | ambiguous (argument : String) (names : List String)
  /-- A flag was given a value. -/
  | value (flag : Flag) (value : String)
  /-- Arguments that mean nothing. -/
  | unrecognized (arguments : List String)
deriving DecidableEq

/-- The wording of a refusal. -/
def Refusal.message : Refusal → String
  | ambiguous argument names =>
    "ambiguous option: " ++ argument ++ " could match " ++ ", ".intercalate names
  | value flag v =>
    "argument " ++ flag.short ++ "/" ++ flag.long ++ ": ignored explicit argument " ++ Text.quoted v
  | unrecognized arguments => "unrecognized arguments: " ++ " ".intercalate arguments

/-- What the command line asks for. -/
inductive Request where
  | help
  | run (verbose : Bool) (file : Option String)
deriving DecidableEq

/-! ### Telling arguments apart -/

/-- What one argument is. -/
inductive Argument where
  | operand
  /-- A flag by a long name, or a short one on its own; with the value
  behind an equals sign. -/
  | flag (f : Flag) (value : Option String)
  /-- A short name with more behind it. -/
  | cluster (f : Flag) (rest : List Char)
  /-- Looks like a flag, and is none. -/
  | unknown
deriving DecidableEq

/-- An argument up to its first equals sign, and what follows it. -/
def splitValue (cs : List Char) : List Char × Option (List Char) :=
  match cs.span (· ≠ '=') with
  | (name, _ :: value) => (name, some value)
  | (name, []) => (name, none)

/-- All characters are decimal digits. -/
def allDigits (cs : List Char) : Bool := cs.all fun c => (Text.digitValue? c).isSome

/-- A negative number: a dash and digits, or a dash and a point before
the last digits. A newline at the end does not matter. -/
def isNegativeNumber : List Char → Bool
  | '-' :: cs =>
    let cs := if cs.getLast? = some '\n' then cs.dropLast else cs
    match cs.span (· ≠ '.') with
    | (whole, []) => !whole.isEmpty && allDigits whole
    | (whole, _ :: fraction) => allDigits whole && !fraction.isEmpty && allDigits fraction
  | _ => false

/-- An argument that starts with a dash and names no flag. -/
def unnamed (cs : List Char) : Argument :=
  if isNegativeNumber cs || cs.contains ' ' then .operand else .unknown

/-- What an argument before `--` is. -/
def classify (argument : String) : Except Refusal Argument :=
  let cs := argument.toList
  match cs with
  | '-' :: c :: rest =>
    match Flag.ofName? argument with
    | some f => .ok (.flag f none)
    | none =>
      let (name, value) := splitValue cs
      if c = '-' then
        let fits := Flag.all.filter fun f => name.isPrefixOf f.long.toList
        match fits with
        | [] => .ok (unnamed cs)
        | [f] => .ok (.flag f (value.map String.ofList))
        | fs => .error (.ambiguous argument (fs.map Flag.long))
      else
        match Flag.ofLetter? c with
        | none => .ok (unnamed cs)
        | some f =>
          match rest with
          | '=' :: rest => .ok (.cluster f rest)
          | rest => .ok (.cluster f rest)
  | _ => .ok .operand

/-! ### Taking arguments in their order -/

/-- The flags behind one dash: `f` and those that the letters behind it
name. From the first other character on, the text is a value of the flag
before it, and no flag takes one. -/
def expand : Flag → List Char → Except Refusal (List Flag)
  | f, [] => .error (.value f "")
  | f, c :: cs =>
    match Flag.ofLetter? c, cs with
    | none, _ => .error (.value f (String.ofList (c :: cs)))
    | some g, [] => .ok [f, g]
    | some g, d :: ds => (expand g (d :: ds)).map fun flags => f :: flags

/-- What has been taken so far. Arguments that mean nothing are kept with
the last one first. -/
structure Taken where
  verbose : Bool := false
  file : Option String := none
  /-- The place of the file is taken. -/
  full : Bool := false
  extras : List String := []

/-- Takes an operand: the first one is the file. -/
def Taken.operand (t : Taken) (argument : String) : Taken :=
  if t.full then { t with extras := argument :: t.extras }
  else { t with file := some argument, full := true }

/-- Takes the arguments from the last flag on: operands, with at most one
`--` among them. A `--` before or right behind the file belongs to it. -/
def Taken.last (t : Taken) (arguments : List String) : Taken :=
  if t.full then { t with extras := arguments.reverse ++ t.extras }
  else
    match arguments with
    | [] => t
    | "--" :: [] => { t with full := true }
    | "--" :: file :: rest =>
      { t with file := some file, full := true, extras := rest.reverse ++ t.extras }
    | file :: "--" :: rest =>
      { t with file := some file, full := true, extras := rest.reverse ++ t.extras }
    | file :: rest =>
      { t with file := some file, full := true, extras := rest.reverse ++ t.extras }

/-- Takes arguments that have been told apart; help ends the matter. -/
def take : Taken → List (String × Argument) → Except Refusal (Option Taken)
  | t, [] => .ok (some t)
  | t, (argument, kind) :: rest =>
    match kind with
    | .operand => take (t.operand argument) rest
    | .unknown => take { t with extras := argument :: t.extras } rest
    | .flag f (some value) => .error (.value f value)
    | .flag .help none => .ok none
    | .flag .verbose none => take { t with verbose := true } rest
    | .cluster f cs =>
      match expand f cs with
      | .error e => .error e
      | .ok flags =>
        if Flag.help ∈ flags then .ok none else take { t with verbose := true } rest

/-- Splits off the arguments behind the last flag. -/
def splitLast (arguments : List (String × Argument)) :
    List (String × Argument) × List (String × Argument) :=
  let isOperand (a : String × Argument) : Bool := a.2 = .operand
  let behind := (arguments.reverse.takeWhile isOperand).reverse
  (arguments.take (arguments.length - behind.length), behind)

/-- What the arguments ask for. -/
def parse (arguments : List String) : Except Refusal Request := do
  let (front, back) := arguments.span (· ≠ "--")
  let kinds ← front.mapM fun a => (classify a).map fun kind => (a, kind)
  let (before, behind) := splitLast kinds
  match ← take {} before with
  | none => return .help
  | some t =>
    let t := t.last (behind.map Prod.fst ++ back)
    if t.extras.isEmpty then return .run t.verbose t.file
    else throw (.unrecognized t.extras.reverse)

/-! ### Texts -/

/-- One line on how to call the program. -/
def usage : String := "usage: fez [-h] [-v] [file]\n"

/-- The text that help shows. -/
def helpText : String :=
  usage ++ "\nFez: a minimal Scheme evaluator\n\npositional arguments:\n  file\n\n" ++
    "options:\n  -h, --help     show this help message and exit\n" ++
    "  -v, --verbose  log at DEBUG level\n"

/-- The text that a refusal shows. -/
def Refusal.text (r : Refusal) : String := usage ++ "fez: error: " ++ r.message ++ "\n"

end MiniScheme.CommandLine
