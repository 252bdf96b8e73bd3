import MiniScheme.Number
import MiniScheme.Operation

/-!
# `MiniScheme.Value`: what expressions evaluate to

A value is an atom or a reference into a store. References make identity
plain: two values are the same object exactly when they are equal as
terms of this type. Strings carry a tag for that purpose, because string
constants of one text are different objects unless the host shares them.
Numbers are known by their values, except that a NaN carries a tag, too.

A primitive is a function of the host with a name and an arity. `F` is
the type of these functions. It stays a parameter, since a program can
call them and nothing else; the built-in operations are the ones that are
there unless others are asked for.
-/

set_option autoImplicit false

namespace MiniScheme

/-- A value that the surroundings of a program hand to it. Programs can
pass such values around and nothing else. -/
inductive Foreign where
  | none
  | boolean (b : Bool)
  | lengthFunction
deriving DecidableEq

/-- The place of a pair, vector, closure, frame or primitive among those
of its store. -/
abbrev Ref := Nat

/-- A value: an atom, or a reference into a store. -/
inductive Value where
  | number (n : Number)
  /-- A string object; `tag` tells it from others of the same text. -/
  | text (tag : Nat) (s : String)
  | symbol (name : String)
  | boolean (b : Bool)
  /-- The empty list. -/
  | nil
  /-- The result of an empty sequence, which has no value. -/
  | emptySequence
  | pair (cell : Ref)
  | vector (index : Ref)
  | closure (index : Ref)
  | primitive (index : Ref)
  | foreign (f : Foreign)
deriving DecidableEq

/-- Only `#f` is false. -/
def Value.isTrue (v : Value) : Bool := v ≠ .boolean false

/-- A pair's two mutable fields. -/
structure Cell where
  car : Value
  cdr : Value
deriving DecidableEq

/-- A procedure made by `lambda`: parameters, body, and the frame it was
made in. -/
structure Closure where
  formals : Value
  body : Value
  frame : Ref
deriving DecidableEq

/-- A procedure that is a function of the host, under a name and an arity
of its own. No call has a negative number of arguments, so a primitive
with a negative arity refuses all of them. -/
structure Primitive (F : Type := Operation) where
  name : String
  arity : Int
  operation : F
deriving DecidableEq

/-- Names bound to values, in the order of their first binding, and the
frame around. -/
structure Frame where
  bindings : List (String × Value)
  outer : Option Ref
deriving DecidableEq

end MiniScheme
