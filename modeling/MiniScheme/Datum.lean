import MiniScheme.Number.Numeral

/-!
# `MiniScheme.Datum`: data as source text writes them

A datum is a finite tree: atoms, pairs and vectors. A list is a chain of
pairs that ends in `()`, and a dotted list one that ends in anything
else. Data have no identity; they get one when they enter a store.
-/

set_option autoImplicit false

namespace MiniScheme

/-- Data that source text can write. -/
inductive Datum where
  | number (n : Number)
  | text (s : String)
  | symbol (name : String)
  | boolean (b : Bool)
  | nil
  | pair (car cdr : Datum)
  | vector (items : List Datum)

namespace Datum

/-- The chain of the given data, which are kept with the last one first,
up to `tail`. -/
def chain (items : List Datum) (tail : Datum) : Datum :=
  items.foldl (fun rest item => pair item rest) tail

/-- The form that a quote mark stands for. -/
def quotation (d : Datum) : Datum := pair (symbol "quote") (pair d nil)

/-- A word that is a numeral is a number; any other is a symbol. -/
def ofWord (word : String) : Datum :=
  match Number.ofWord? word with
  | some n => number n
  | none => symbol word

end Datum

/-! ### Strings -/

/-- What an escaped character stands for; most stand for themselves. -/
def escaped (c : Char) : Char :=
  if c = 'n' then '\n' else if c = 't' then '\t' else if c = 'r' then '\r' else c

/-- Resolves the escapes. A backslash at the very end stands for
itself. -/
def unescape : List Char → List Char
  | [] => []
  | '\\' :: c :: cs => escaped c :: unescape cs
  | c :: cs => c :: unescape cs

/-- The text that a string token stands for: its characters without the
first and the last, escapes resolved. -/
def stringValue (token : String) : String :=
  String.ofList (unescape (token.toList.drop 1).dropLast)

end MiniScheme
