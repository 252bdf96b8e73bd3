import MiniScheme.Value

/-!
# `MiniScheme.Store`: the objects that values refer to

A store holds the pairs, vectors, closures, frames and primitives made so
far. Objects are added at the end and never removed, so a reference keeps
its meaning; only the fields of pairs and the bindings of frames change.

* `cons`, `newVector`, `newClosure`, `newFrame`, `newPrimitive` and
  `newString` add an object. Some strings are there from the start, and
  `newString` gives these again.
* `cell?` reads a pair, `setCar` and `setCdr` write one.
* `spine?` splits a chain of pairs into its elements and what it ends in;
  a circular chain has no end.

Its primitives are functions of the host from `F`.
-/

set_option autoImplicit false

namespace MiniScheme

/-- All objects. -/
structure Store (F : Type := Operation) where
  cells : Array Cell := #[]
  vectors : Array (List Value) := #[]
  closures : Array Closure := #[]
  frames : Array Frame := #[]
  primitives : Array (Primitive F) := #[]
  /-- The number of strings made so far, which is the next tag. -/
  strings : Nat := 0
deriving DecidableEq

namespace Store

variable {F : Type}

/-! ### New objects -/

/-- A new pair. -/
def cons (s : Store F) (car cdr : Value) : Value × Store F :=
  (.pair s.cells.size, { s with cells := s.cells.push ⟨car, cdr⟩ })

/-- A new vector. -/
def newVector (s : Store F) (items : List Value) : Value × Store F :=
  (.vector s.vectors.size, { s with vectors := s.vectors.push items })

/-- A new closure. -/
def newClosure (s : Store F) (c : Closure) : Value × Store F :=
  (.closure s.closures.size, { s with closures := s.closures.push c })

/-- A new primitive. -/
def newPrimitive (s : Store F) (p : Primitive F) : Value × Store F :=
  (.primitive s.primitives.size, { s with primitives := s.primitives.push p })

/-- A new frame. -/
def newFrame (s : Store F) (f : Frame) : Ref × Store F :=
  (s.frames.size, { s with frames := s.frames.push f })

/-- The host keeps the empty string and the strings of one character up to
U+00FF once each. -/
def isShared (text : String) : Bool :=
  match text.toList with
  | [] => true
  | [c] => c.toNat < 256
  | _ => false

/-- A new string object, or the one that the host has of this text. -/
def newString (s : Store F) (text : String) : Value × Store F :=
  (.text (if isShared text then 0 else s.strings) text, { s with strings := s.strings + 1 })

/-- A chain of new pairs with the given elements, the last one first, up
to `tail`. -/
def consAll (s : Store F) (items : List Value) (tail : Value) : Value × Store F :=
  items.foldl (fun (rest, s) item => s.cons item rest) (tail, s)

/-- A chain of new pairs with the given elements up to `tail`. -/
def list (s : Store F) (items : List Value) (tail : Value) : Value × Store F :=
  s.consAll items.reverse tail

/-! ### Pairs -/

/-- The fields of a value that is a pair. -/
def cell? (s : Store F) : Value → Option Cell
  | .pair r => s.cells[r]?
  | _ => none

/-- The second field of a pair; any other value has none, and stands for
itself. -/
def cdrOf (s : Store F) (v : Value) : Value := ((s.cell? v).map Cell.cdr).getD v

/-- Replaces the first field of a pair. -/
def setCar (s : Store F) (r : Ref) (v : Value) : Store F :=
  { s with cells := s.cells.modify r fun c => { c with car := v } }

/-- Replaces the second field of a pair. -/
def setCdr (s : Store F) (r : Ref) (v : Value) : Store F :=
  { s with cells := s.cells.modify r fun c => { c with cdr := v } }

/-- A new pair has the fields that it was made with. -/
@[simp] theorem cell?_cons (s : Store F) (car cdr : Value) :
    (s.cons car cdr).2.cell? (s.cons car cdr).1 = some ⟨car, cdr⟩ := by
  simp [cons, cell?]

/-- A new pair leaves all others as they are. -/
theorem cell?_cons_of_lt (s : Store F) (car cdr : Value) {r : Ref} (h : r < s.cells.size) :
    (s.cons car cdr).2.cell? (.pair r) = s.cell? (.pair r) := by
  have hne : r ≠ s.cells.size := Nat.ne_of_lt h
  simp [cons, cell?, Array.getElem?_push, hne]

/-- Writing the first field of a pair changes that field and no other
pair. -/
theorem cell?_setCar (s : Store F) (r q : Ref) (v : Value) :
    (s.setCar r v).cell? (.pair q) =
      if r = q then (s.cell? (.pair q)).map fun c => { c with car := v } else s.cell? (.pair q) := by
  simp [setCar, cell?, Array.getElem?_modify]

/-- Writing the second field of a pair changes that field and no other
pair. -/
theorem cell?_setCdr (s : Store F) (r q : Ref) (v : Value) :
    (s.setCdr r v).cell? (.pair q) =
      if r = q then (s.cell? (.pair q)).map fun c => { c with cdr := v } else s.cell? (.pair q) := by
  simp [setCdr, cell?, Array.getElem?_modify]

/-! ### Chains of pairs -/

/-- Follows a chain for less than `fuel` pairs; `items` are the elements
so far, the last one first. -/
def spineFrom (s : Store F) : Nat → List Value → Value → Option (List Value × Value)
  | 0, _, _ => none
  | fuel + 1, items, v =>
    match s.cell? v with
    | some c => spineFrom s fuel (c.car :: items) c.cdr
    | none => some (items.reverse, v)

/-- The elements of a chain of pairs and what it ends in. A chain longer
than the number of pairs is circular and has neither. -/
def spine? (s : Store F) (v : Value) : Option (List Value × Value) :=
  s.spineFrom (s.cells.size + 1) [] v

end Store

end MiniScheme
