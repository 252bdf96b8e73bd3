import MiniScheme.Datum.Reader

/-!
# `MiniScheme.Datum.Stream`: tokens that are drawn when they are needed

A `TokenStream` draws tokens from a source, one at a time. A token that
was looked at and not taken yet waits in a buffer.

Reading a datum is recursive descent: `expression` takes a token, and if
the token opens a form, `required`, `listFrom` and `vectorFrom` read the
data in the form with `expression` itself, which may open one form less
there. Every datum in a form takes a token, so no loop goes round more
often than there are tokens; all of them have that number as their fuel.

A source that cuts its tokens from a text is broken off when the forms
that are open overflow. The overflow arises where the next token is being
cut, and no token comes from there any more.

`TokenStream.call` is one use of a stream from outside.
-/

set_option autoImplicit false

namespace MiniScheme

/-- Where tokens come from. -/
structure TokenSource where
  tokens : List Token
  /-- The fault behind the last token. -/
  fault : Option ReadError := none
  /-- The tokens are cut from a text when they are drawn. -/
  scanned : Bool := false

/-- The tokens of a text, up to its end or its fault. -/
def TokenSource.ofText (source : String) : TokenSource :=
  let (tokens, fault) := lex source
  ⟨tokens, fault, true⟩

/-- A source of tokens, and the token that was drawn from it and not
taken. -/
structure TokenStream where
  buffer : List Token := []
  source : TokenSource

namespace TokenStream

/-- A computation on a stream, which can fail and leaves a stream in either
case. -/
abbrev Reading := EStateM Fault TokenStream

/-- The tokens that were not taken yet. -/
def left (s : TokenStream) : List Token := s.buffer ++ s.source.tokens

/-! ### Tokens -/

/-- Draws the next token; nothing at the end. The fault of the source
arises once. -/
def draw : Reading (Option Token) := fun s =>
  match s.source with
  | ⟨t :: ts, fault, scanned⟩ => .ok (some t) { s with source := ⟨ts, fault, scanned⟩ }
  | ⟨[], some e, scanned⟩ => .error (.reading e) { s with source := ⟨[], none, scanned⟩ }
  | ⟨[], none, _⟩ => .ok none s

/-- The next token, which stays to be taken; nothing at the end. -/
def peek : Reading (Option Token) := do
  match (← get).buffer with
  | t :: _ => return some t
  | [] =>
    match ← draw with
    | some t =>
      modify fun s => { s with buffer := [t] }
      return some t
    | none => return none

/-- Takes the next token; nothing at the end. -/
def advance : Reading (Option Token) := do
  match (← get).buffer with
  | t :: buffer =>
    modify fun s => { s with buffer }
    return some t
  | [] => draw

/-! ### Data -/

/-- Fails because too many forms are open. -/
def overflow {α : Type} : Reading α := fun s =>
  .error .tooDeep (if s.source.scanned then { s with source := ⟨[], none, true⟩ } else s)

/-- Reads a datum that has to be there. -/
def required (inner : Reading (Option Datum)) (lead : Lead) : Reading Datum := do
  match ← peek with
  | none => throw (.reading (.endAfter lead))
  | some t =>
    if t.kind = .rparen then throw (.reading (.closeAfter lead))
    else
      match ← inner with
      | some d => return d
      | none => throw (.reading (.endAfter lead))

/-- Reads the end of a list after its tail. -/
def ending (items : List Datum) (tail : Datum) : Reading Datum := do
  match ← peek with
  | none => throw (.reading .openList)
  | some t =>
    if t.kind = .rparen then
      let _ ← advance
      return .chain items tail
    else throw (.reading .longTail)

/-- Reads a list on to its end, in less than `fuel` rounds; `items` are its
data so far, the last one first. -/
def listFrom (inner : Reading (Option Datum)) : (fuel : Nat) → List Datum → Reading Datum
  | 0, _ => throw .endless
  | fuel + 1, items => do
    match ← peek with
    | none => throw (.reading .openList)
    | some t =>
      if t.kind = .rparen then
        let _ ← advance
        return .chain items .nil
      else if t.kind = .symbol ∧ t.text = "." then
        if items.isEmpty then throw (.reading .leadingDot)
        else
          let _ ← advance
          let tail ← required inner .dot
          ending items tail
      else
        match ← inner with
        | some d => listFrom inner fuel (d :: items)
        | none => throw (.reading .openList)

/-- Reads a vector on to its end, in less than `fuel` rounds; `items` are
its data so far, the last one first. -/
def vectorFrom (inner : Reading (Option Datum)) : (fuel : Nat) → List Datum → Reading Datum
  | 0, _ => throw .endless
  | fuel + 1, items => do
    match ← peek with
    | none => throw (.reading .openVector)
    | some t =>
      if t.kind = .rparen then
        let _ ← advance
        return .vector items.reverse
      else
        match ← inner with
        | some d => vectorFrom inner fuel (d :: items)
        | none => throw (.reading .openVector)

/-- What a token stands for that was taken; `opened` reads on in a form that
it opens. -/
def datum (fuel : Nat) (opened : (Reading (Option Datum) → Reading Datum) → Reading Datum)
    (t : Token) : Reading Datum :=
  match t.kind with
  | .symbol => if t.text = "." then throw (.reading .strayDot) else return .ofWord t.text
  | .boolean => return .boolean (t.text = "#t" ∨ t.text = "#true")
  | .string => return .text (stringValue t.text)
  | .quote => opened fun inner => do return .quotation (← required inner .quote)
  | .lparen => opened fun inner => listFrom inner fuel []
  | .vector => opened fun inner => vectorFrom inner fuel []
  | .rparen => throw (.reading .strayClose)
  | .other name => throw (.reading (.unknownToken name t.text))

/-- Reads one datum; nothing at the end. -/
def expressionWith (fuel : Nat)
    (opened : (Reading (Option Datum) → Reading Datum) → Reading Datum) :
    Reading (Option Datum) := do
  match ← peek with
  | none => return none
  | some t =>
    let _ ← advance
    return some (← datum fuel opened t)

/-- Reads one datum with at most `room` open forms; nothing at the end. -/
def expression (fuel : Nat) : (room : Nat) → Reading (Option Datum)
  | 0 => expressionWith fuel fun _ => overflow
  | room + 1 => expressionWith fuel fun form => form (expression fuel room)

/-- Reads data up to the end or the first fault, less than `rounds` of them;
`read` holds those so far, the last one first. -/
def expressionsFrom (fuel depth : Nat) :
    (rounds : Nat) → List Datum → TokenStream → (List Datum × Option Fault) × TokenStream
  | 0, read, s => ((read.reverse, some .endless), s)
  | rounds + 1, read, s =>
    match peek s with
    | .error e s => ((read.reverse, some e), s)
    | .ok none s => ((read.reverse, none), s)
    | .ok (some _) s =>
      match expression fuel depth s with
      | .error e s => ((read.reverse, some e), s)
      | .ok none s => ((read.reverse, none), s)
      | .ok (some d) s => expressionsFrom fuel depth rounds (d :: read) s

/-! ### Calls -/

/-- The uses of a stream. -/
inductive Call where
  | peek
  | advance
  | parse
  | parseAll
deriving DecidableEq

/-- What a call gives: a token, a datum, or data up to the end or a fault. -/
inductive Reply where
  | token (t : Except Fault (Option Token))
  | datum (d : Except Fault (Option Datum))
  | data (read : List Datum) (fault : Option Fault)

/-- The outcome of a computation, and the stream that it leaves. -/
def outcome {α : Type} (m : Reading α) (s : TokenStream) : Except Fault α × TokenStream :=
  match m s with
  | .ok a s => (.ok a, s)
  | .error e s => (.error e, s)

/-- One use of a stream, with at most `depth` open forms. -/
def call (depth : Nat) (s : TokenStream) (c : Call) : Reply × TokenStream :=
  let fuel := s.left.length + 1
  match c with
  | .peek => (outcome peek s).map .token id
  | .advance => (outcome advance s).map .token id
  | .parse => (outcome (expression fuel depth) s).map .datum id
  | .parseAll =>
    (expressionsFrom fuel depth fuel [] s).map (fun (read, fault) => .data read fault) id

end TokenStream

end MiniScheme
