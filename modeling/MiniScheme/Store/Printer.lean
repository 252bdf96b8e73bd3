import MiniScheme.Fault
import MiniScheme.Number.Decimal
import MiniScheme.Store
import MiniScheme.Text.Quoted
import Std.Data.TreeSet

/-!
# `MiniScheme.Store.Printer`: the texts of values

A value has three texts.

* `write` is the external form that a reader takes back: lists in
  parentheses, strings in quotes.
* `display` is for messages: a string is its bare text and a vector a
  bracketed row of inspected elements.
* `inspect` is for the listing of frames: as `display`, but with strings
  quoted and symbols marked as such.

Pairs can form cycles. While a list is being written, its pairs so far
are active, and an active pair that is met again is written as `...`.
They are active only until the list ends, so shared parts are written in
full at every place.

Each function takes the nesting that it may use up. Beyond it, and for an
integer with too many digits, there is no text.
-/

set_option autoImplicit false

namespace MiniScheme

/-- What an active pair is written as. -/
def cycleMark : String := "..."

/-- The external form of a string: only backslashes and double quotes are
escaped. -/
def writtenString (s : String) : String :=
  let body := s.toList.foldl (fun out c =>
    if c = '\\' ∨ c = '"' then (out.push '\\').push c else out.push c) ""
  "\"" ++ body ++ "\""

/-- The text of a foreign value. -/
def Foreign.text : Foreign → String
  | .none => "None"
  | .boolean b => if b then "True" else "False"
  | .lengthFunction => "<built-in function len>"

/-- The text of a primitive. -/
def Primitive.text {F : Type} (p : Primitive F) : String :=
  "#<primitive " ++ p.name ++ "/" ++ toString p.arity ++ ">"

/-- The pairs that are being written. -/
abbrev Active := Std.TreeSet Ref

/-- Adds the text of a value to `out` while the given pairs are active. -/
abbrev Writer := (active : Active) → (out : String) → Value → Except Fault String

namespace Store

variable {F : Type}

/-- The fields of a pair that is not active, with its place. -/
def inactive? (s : Store F) (active : Active) : Value → Option (Ref × Cell)
  | .pair r => if r ∈ active then none else (s.cells[r]?).map fun c => (r, c)
  | _ => none

/-- Writes the rest of a list, from behind an element to the closing
parenthesis, in less than `fuel` pairs. -/
def writeRest (s : Store F) (element : Writer) : Nat → Writer
  | 0, _, _, _ => .error .endless
  | fuel + 1, active, out, rest =>
    match s.inactive? active rest with
    | some (r, c) => do
      let active := active.insert r
      let out ← element active (out.push ' ') c.car
      writeRest s element fuel active out c.cdr
    | none =>
      if rest = .nil then .ok (out.push ')')
      else do
        let out ← element active (out ++ " . ") rest
        .ok (out.push ')')

/-- Writes elements with a blank between any two. -/
def writeItems (element : Writer) (active : Active) : String → List Value → Except Fault String
  | out, [] => .ok out
  | out, [v] => element active out v
  | out, v :: vs => do
    let out ← element active out v
    writeItems element active (out.push ' ') vs

/-- Writes a value whose parts `element` writes. -/
def writeValue (s : Store F) (element : Writer) : Writer := fun active out v =>
  match v with
  | .number n =>
    match n.text? with
    | some t => .ok (out ++ t)
    | none => .error .tooManyDigits
  | .text _ t => .ok (out ++ writtenString t)
  | .symbol name => .ok (out ++ name)
  | .boolean b => .ok (out ++ (if b then "#t" else "#f"))
  | .nil => .ok (out ++ "()")
  | .emptySequence => .ok (out ++ "#<empty-begin>")
  | .pair _ =>
    match s.inactive? active v with
    | some (r, c) => do
      let active := active.insert r
      let out ← element active (out.push '(') c.car
      s.writeRest element (s.cells.size + 1) active out c.cdr
    | none => .ok (out ++ cycleMark)
  | .vector r => do
    let out ← writeItems element active (out ++ "#(") (s.vectors[r]?.getD [])
    .ok (out.push ')')
  | .closure r =>
    match s.closures[r]? with
    | some c => do
      let out ← element ∅ (out ++ "#<closure (lambda ") c.formals
      .ok (out ++ ")>")
    | none => .ok (out ++ cycleMark)
  | .primitive r => .ok (out ++ ((s.primitives[r]?).map Primitive.text).getD cycleMark)
  | .foreign f => .ok (out ++ f.text)

/-- Writes a value with at most `depth` levels of nesting. -/
def writeTo (s : Store F) : (depth : Nat) → Writer
  | 0 => fun _ _ _ => .error .tooDeep
  | depth + 1 => s.writeValue (writeTo s depth)

/-- The external form of a value. -/
def write (s : Store F) (depth : Nat) (v : Value) : Except Fault String := s.writeTo depth ∅ "" v

/-- The text of a value in a listing. -/
def inspect (s : Store F) : (depth : Nat) → Value → Except Fault String
  | 0, _ => .error .tooDeep
  | depth + 1, v =>
    match v with
    | .text _ t => .ok (Text.quoted t)
    | .symbol name => .ok ("Symbol(" ++ Text.quoted name ++ ")")
    | .vector r => do
      let items ← (s.vectors[r]?.getD []).mapM (inspect s depth)
      .ok ("[" ++ ", ".intercalate items ++ "]")
    | v => s.write (depth + 1) v

/-- The text of a value in a message. -/
def display (s : Store F) (depth : Nat) (v : Value) : Except Fault String :=
  match v with
  | .text _ t => .ok t
  | .symbol name => .ok name
  | v => s.inspect depth v

end Store

end MiniScheme
