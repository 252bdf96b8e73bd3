import MiniScheme.Datum
import MiniScheme.Fault
import MiniScheme.Token.Lexer

/-!
# `MiniScheme.Datum.Reader`: from tokens to data

Reading is a pushdown automaton. Its stack holds the forms that are open,
innermost first, each with the data it has so far. `feed` takes one
token: it may complete a datum, open a form, or fail. A completed datum
goes to the innermost open form, and when there is none it is the result.

Every reader below is a recursion on the tokens: `Cursor.next` reads one
datum, `Cursor.rest` all that follow, and `read` all data of a text. A
`Cursor` also knows the fault of the text that its tokens came from; the
fault arises when a token after the last one is asked for, and only
once.

The number of open forms is limited. Beside the stack goes the room that
is left, the number of forms that may still be opened: opening a form
takes one off it, completing one gives it back, so room and open forms
together always make up the limit.
-/

set_option autoImplicit false

namespace MiniScheme

/-- A form that is open, with its data so far, the last one first. -/
inductive OpenForm where
  /-- A quote mark that waits for its datum. -/
  | quotation
  /-- A list. -/
  | list (items : List Datum)
  /-- A list after its dot, which waits for its tail. -/
  | tail (items : List Datum)
  /-- A list after its tail, which waits for its end. -/
  | ending (items : List Datum) (tail : Datum)
  /-- A vector. -/
  | vector (items : List Datum)

/-- The fault of a text that ends inside the form. -/
def OpenForm.unfinished : OpenForm → ReadError
  | quotation => .endAfter .quote
  | list _ => .openList
  | tail _ => .endAfter .dot
  | ending .. => .openList
  | vector _ => .openVector

namespace Datum

/-- What one token does. -/
inductive Step where
  /-- It completes the datum. -/
  | done (d : Datum)
  /-- It is taken; these forms are open now, and that is the room left. -/
  | more (room : Nat) (stack : List OpenForm)
  /-- It is taken, and is a fault. -/
  | reject (fault : Fault)
  /-- It is a fault, and stays to be read again. -/
  | decline (fault : Fault)

/-- Gives a completed datum to the innermost open form. A quotation is
then complete itself. -/
def deliver (d : Datum) (room : Nat) : List OpenForm → Step
  | [] => .done d
  | .quotation :: stack => deliver (quotation d) (room + 1) stack
  | .list items :: stack => .more room (.list (d :: items) :: stack)
  | .tail items :: stack => .more room (.ending items d :: stack)
  | .ending items tail :: stack => .more room (.ending items tail :: stack)
  | .vector items :: stack => .more room (.vector (d :: items) :: stack)

/-- Opens a form, if there is room. -/
def openForm (form : OpenForm) (room : Nat) (stack : List OpenForm) : Step :=
  match room with
  | 0 => .reject .tooDeep
  | room + 1 => .more room (form :: stack)

/-- A token where a datum has to start. -/
def start (room : Nat) (stack : List OpenForm) (t : Token) : Step :=
  match t.kind with
  | .symbol =>
    if t.text = "." then .reject (.reading .strayDot) else deliver (ofWord t.text) room stack
  | .boolean => deliver (boolean (t.text = "#t" ∨ t.text = "#true")) room stack
  | .string => deliver (text (stringValue t.text)) room stack
  | .quote => openForm .quotation room stack
  | .lparen => openForm (.list []) room stack
  | .vector => openForm (.vector []) room stack
  | .rparen => .reject (.reading .strayClose)
  | .other name => .reject (.reading (.unknownToken name t.text))

/-- A token, whatever is open. -/
def feed (room : Nat) (stack : List OpenForm) (t : Token) : Step :=
  match stack with
  | [] => start room [] t
  | .quotation :: outer =>
    if t.kind = .rparen then .decline (.reading (.closeAfter .quote))
    else start room (.quotation :: outer) t
  | .list items :: outer =>
    if t.kind = .rparen then deliver (chain items nil) (room + 1) outer
    else if t.kind = .symbol ∧ t.text = "." then
      if items.isEmpty then .decline (.reading .leadingDot) else .more room (.tail items :: outer)
    else start room (.list items :: outer) t
  | .tail items :: outer =>
    if t.kind = .rparen then .decline (.reading (.closeAfter .dot))
    else start room (.tail items :: outer) t
  | .ending items tail :: outer =>
    if t.kind = .rparen then deliver (chain items tail) (room + 1) outer
    else .decline (.reading .longTail)
  | .vector items :: outer =>
    if t.kind = .rparen then deliver (vector items.reverse) (room + 1) outer
    else start room (.vector items :: outer) t

end Datum

/-- A place in a row of tokens: those that follow, and the fault of the
text behind them. -/
structure Cursor where
  tokens : List Token
  fault : Option ReadError := none
deriving DecidableEq

namespace Cursor

/-- The start of a text. -/
def ofSource (source : String) : Cursor :=
  let (tokens, fault) := lex source
  ⟨tokens, fault⟩

/-- What happens behind the last token: the fault of the text arises,
once; otherwise the text ends, which is a fault inside a form. -/
def atEnd (fault : Option ReadError) (stack : List OpenForm) : Except Fault Unit :=
  match fault, stack with
  | some e, _ => .error (.reading e)
  | none, form :: _ => .error (.reading form.unfinished)
  | none, [] => .ok ()

/-- The next token, which stays to be read; nothing at the end. -/
def peek : Cursor → Except Fault (Option Token) × Cursor
  | ⟨t :: ts, fault⟩ => (.ok (some t), ⟨t :: ts, fault⟩)
  | ⟨[], fault⟩ => ((atEnd fault []).map fun () => none, ⟨[], none⟩)

/-- Takes the next token; nothing at the end. -/
def advance : Cursor → Except Fault (Option Token) × Cursor
  | ⟨t :: ts, fault⟩ => (.ok (some t), ⟨ts, fault⟩)
  | ⟨[], fault⟩ => ((atEnd fault []).map fun () => none, ⟨[], none⟩)

/-- Reads on until a datum is complete. -/
def nextFrom (fault : Option ReadError) :
    (room : Nat) → List OpenForm → List Token → Except Fault (Option Datum) × Cursor
  | _, stack, [] => ((atEnd fault stack).map fun () => none, ⟨[], none⟩)
  | room, stack, t :: ts =>
    match Datum.feed room stack t with
    | .done d => (.ok (some d), ⟨ts, fault⟩)
    | .more room stack => nextFrom fault room stack ts
    | .reject e => (.error e, ⟨ts, fault⟩)
    | .decline e => (.error e, ⟨t :: ts, fault⟩)

/-- Reads one datum with at most `depth` open forms; nothing at the
end. -/
def next (depth : Nat) (c : Cursor) : Except Fault (Option Datum) × Cursor :=
  nextFrom c.fault depth [] c.tokens

/-- Reads on to the end; `read` holds the data so far, the last one
first. -/
def restFrom (depth : Nat) (fault : Option ReadError) (read : List Datum) :
    (room : Nat) → List OpenForm → List Token → List Datum × Option Fault × Cursor
  | _, stack, [] =>
    match atEnd fault stack with
    | .ok () => (read.reverse, none, ⟨[], none⟩)
    | .error e => (read.reverse, some e, ⟨[], none⟩)
  | room, stack, t :: ts =>
    match Datum.feed room stack t with
    | .done d => restFrom depth fault (d :: read) depth [] ts
    | .more room stack => restFrom depth fault read room stack ts
    | .reject e => (read.reverse, some e, ⟨ts, fault⟩)
    | .decline e => (read.reverse, some e, ⟨t :: ts, fault⟩)

/-- Reads all data up to the end or the first fault. -/
def rest (depth : Nat) (c : Cursor) : List Datum × Option Fault × Cursor :=
  restFrom depth c.fault [] depth [] c.tokens

end Cursor

/-- All data of a text up to its end or its first fault. -/
def read (depth : Nat) (source : String) : List Datum × Option Fault :=
  let (data, fault, _) := (Cursor.ofSource source).rest depth
  (data, fault)

end MiniScheme
