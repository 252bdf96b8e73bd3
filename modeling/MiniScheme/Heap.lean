import MiniScheme.Number

/-!
# `MiniScheme.Heap`: data as objects with addresses

A store keeps pairs and vectors as objects and knows an atom by what it is.
Here the atoms are objects as well. A heap holds numbers, strings, symbols,
booleans, the empty list, the empty sequence, pairs and vectors, each at an
address of its own, and two objects are the same one if their addresses are
equal.

Some objects are there once. The empty list, the two booleans and the empty
sequence stand at the addresses that are named here, and programs test for them
by these addresses: `null?` asks for `Address.emptyList`, and an `if` for
`Address.boolean false`. A symbol is made by `intern`, which looks its name up in
the table of the symbols made so far.
-/

set_option autoImplicit false

namespace MiniScheme

/-- The place of an object among those of its heap. -/
abbrev Address := Nat

namespace Address

/-- The one empty list. -/
def emptyList : Address := 0

/-- The one `#f` and the one `#t`. -/
def boolean : Bool → Address
  | false => 1
  | true => 2

/-- The one result of an empty sequence. -/
def emptySequence : Address := 3

end Address

/-- What an object is made of. -/
inductive Content where
  | number (n : Number)
  | text (s : String)
  | symbol (name : String)
  | boolean (b : Bool)
  | emptyList
  | emptySequence
  /-- A pair. It has no fields between the moment when it is made and the one
  when they are set. -/
  | pair (fields : Option (Address × Address))
  | vector (items : List Address)
deriving DecidableEq

namespace Content

/-- The objects that an object refers to, in order. -/
def parts : Content → List Address
  | .pair (some (car, cdr)) => [car, cdr]
  | .vector items => items
  | _ => []

/-- Pairs and vectors consist of other objects. All others are atoms. -/
def isCompound : Content → Bool
  | .pair _ | .vector _ => true
  | _ => false

/-- A pair with another first field. -/
def withCar (v : Address) : Content → Content
  | .pair (some (_, cdr)) => .pair (some (v, cdr))
  | o => o

/-- A pair with another second field. -/
def withCdr (v : Address) : Content → Content
  | .pair (some (car, _)) => .pair (some (car, v))
  | o => o

end Content

/-- All objects, and the table of the symbols among them. -/
structure Heap where
  objects : Array Content
  symbols : List (String × Address)
deriving DecidableEq

namespace Heap

/-! ### Objects -/

/-- The heap that a program starts with. -/
def initial : Heap where
  objects := #[.emptyList, .boolean false, .boolean true, .emptySequence]
  symbols := []

/-- A new object. -/
def add (h : Heap) (o : Content) : Address × Heap :=
  (h.objects.size, { h with objects := h.objects.push o })

/-- The symbol of a name: the one in the table, or else a new one, which is then
in the table. -/
def intern (h : Heap) (name : String) : Address × Heap :=
  match h.symbols.lookup name with
  | some a => (a, h)
  | none => (h.objects.size,
      { objects := h.objects.push (.symbol name)
        symbols := (name, h.objects.size) :: h.symbols })

/-- Puts contents in the place of those of an object. -/
def fill (h : Heap) (a : Address) (o : Content) : Heap :=
  { h with objects := h.objects.setIfInBounds a o }

/-- Replaces the first field of a pair. -/
def setCar (h : Heap) (a v : Address) : Heap :=
  { h with objects := h.objects.modify a (.withCar v) }

/-- Replaces the second field of a pair. -/
def setCdr (h : Heap) (a v : Address) : Heap :=
  { h with objects := h.objects.modify a (.withCdr v) }

/-! ### Tests -/

/-- The object is the empty list. -/
def isNull (a : Address) : Bool := a = Address.emptyList

/-- An `if` takes the object for true. -/
def isTrue (a : Address) : Bool := a ≠ Address.boolean false

/-- The object is a symbol. -/
def isSymbol (h : Heap) (a : Address) : Bool :=
  match h.objects[a]? with
  | some (.symbol _) => true
  | _ => false

/-- The two are one object, except that numbers are compared by value. -/
def same (h : Heap) (a b : Address) : Bool :=
  match h.objects[a]?, h.objects[b]? with
  | some (.number m), some (.number n) => m.equal n
  | _, _ => a = b

end Heap

end MiniScheme
