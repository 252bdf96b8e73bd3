import MiniScheme.Fault
import MiniScheme.Heap

/-!
# `MiniScheme.Heap.Copy`: deep copies, object by object

The copier of the host keeps a memo, which says for each object that was copied
where its copy is. Asked for the copy of an object, it looks there first. Then it
asks the class of the object, which may have a copy method. If it has none, the
object is rebuilt: a new object of the class is made and entered in the memo,
then the fields are copied one after the other, and then they are set. Since an
object is in the memo before its fields are copied, a cycle ends where it began.

Numbers and strings are their own copies by the rules of the host. The classes of
symbols, booleans, the empty list and the empty sequence have a method that says
the same of theirs. Pairs have none, nor have vectors, so these are what is
rebuilt.

The methods are a parameter of the copier, and `Kind.copyMethod?` are those that
there are. Without the one of the empty list, the copy of a list would end in a
second empty list, which prints right and tests wrong.
-/

set_option autoImplicit false

namespace MiniScheme

/-- The class of an object. -/
inductive Kind where
  | number
  | text
  | symbol
  | boolean
  | emptyList
  | emptySequence
  | pair
  | vector
deriving DecidableEq

namespace Content

/-- The class that an object is of. -/
def kind : Content → Kind
  | .number _ => .number
  | .text _ => .text
  | .symbol _ => .symbol
  | .boolean _ => .boolean
  | .emptyList => .emptyList
  | .emptySequence => .emptySequence
  | .pair _ => .pair
  | .vector _ => .vector

/-- A new object of the same class, before its fields are set. -/
def blank : Content → Content
  | .pair _ => .pair none
  | .vector _ => .vector []
  | o => o

/-- The same object with these fields. -/
def refill : Content → List Address → Content
  | .pair _, [car, cdr] => .pair (some (car, cdr))
  | .vector _, items => .vector items
  | o, _ => o

end Content

/-- A copy under way. -/
structure Copying where
  heap : Heap
  /-- Where the copies of the objects are that were copied, the last one first. -/
  memo : List (Address × Address) := []

/-- A way to copy an object, which gives the address of the copy. -/
abbrev Copier := Copying → Address → Except Fault (Address × Copying)

/-- The object is its own copy. -/
def Copier.itself : Copier := fun k a => .ok (a, k)

/-- The copy methods of the classes. -/
def Kind.copyMethod? : Kind → Option Copier
  | .number => some .itself
  | .text => some .itself
  | .symbol => some .itself
  | .boolean => some .itself
  | .emptyList => some .itself
  | .emptySequence => some .itself
  | .pair => none
  | .vector => none

namespace Copying

/-- Makes an object and enters it in the memo as the copy of another. -/
def enter (k : Copying) (a : Address) (o : Content) : Address × Copying :=
  let (c, heap) := k.heap.add o
  (c, ⟨heap, (a, c) :: k.memo⟩)

/-- Enters a copy in the memo, unless the object is its own copy. -/
def remember (k : Copying) (a c : Address) : Copying :=
  if c = a then k else { k with memo := (a, c) :: k.memo }

/-- Sets the fields of a copy. -/
def fill (k : Copying) (c : Address) (o : Content) : Copying :=
  { k with heap := k.heap.fill c o }

/-- Copies objects one after the other. -/
def copyAll (copy : Copier) : Copying → List Address → Except Fault (List Address × Copying)
  | k, [] => .ok ([], k)
  | k, a :: as => do
    let (c, k) ← copy k a
    let (cs, k) ← copyAll copy k as
    .ok (c :: cs, k)

/-- Copies an object whose class has no method: field by field, where `copy` is
the way to copy a field. A symbol is made anew from its name. -/
def rebuild (copy : Copier) (k : Copying) (a : Address) :
    Content → Except Fault (Address × Copying)
  | .symbol name =>
    let (c, heap) := k.heap.intern name
    .ok (c, Copying.remember ⟨heap, k.memo⟩ a c)
  | o => do
    let (c, k) := k.enter a o.blank
    let (fields, k) ← copyAll copy k o.parts
    .ok (c, k.fill c (o.refill fields))

/-- Copies an object and all that it leads to, along paths of less than `depth`
steps. -/
def copyFrom (methods : Kind → Option Copier) : (depth : Nat) → Copier
  | 0, _, _ => .error .tooDeep
  | depth + 1, k, a =>
    match k.memo.lookup a with
    | some c => .ok (c, k)
    | none =>
      match k.heap.objects[a]? with
      | none => .ok (a, k)
      | some o =>
        match methods o.kind with
        | some method => do
          let (c, k) ← method k a
          .ok (c, k.remember a c)
        | none => rebuild (copyFrom methods depth) k a o

end Copying

/-- A deep copy of an object, by the methods that the classes have. -/
def Heap.deepCopy (h : Heap) (depth : Nat) (a : Address) : Except Fault (Address × Heap) :=
  (Copying.copyFrom Kind.copyMethod? depth ⟨h, []⟩ a).map fun (c, k) => (c, k.heap)

end MiniScheme
