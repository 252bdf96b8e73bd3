import MiniScheme.Fault
import MiniScheme.Store

/-!
# `MiniScheme.Store.Copy`: shallow and deep copies

A shallow copy of a pair, vector, closure or primitive is a new object
with the same parts; an atom is its own copy.

A deep copy is a renaming. `reach` collects the objects that a value
leads to, each once; the store then grows by one new object for each of
them, whose parts are renamed the same way. So two paths through the copy
meet exactly where they meet in the value itself, cycles included.
-/

set_option autoImplicit false

namespace MiniScheme

/-- An object of a store. -/
inductive Object where
  | cell (r : Ref)
  | vector (r : Ref)
  | closure (r : Ref)
  | primitive (r : Ref)
  | frame (r : Ref)
deriving DecidableEq

/-- The object that a value refers to. -/
def Value.object? : Value → Option Object
  | .pair r => some (.cell r)
  | .vector r => some (.vector r)
  | .closure r => some (.closure r)
  | .primitive r => some (.primitive r)
  | _ => none

namespace Store

variable {F : Type}

/-! ### Shallow copies -/

/-- A new object with the same parts; an atom is its own copy. -/
def shallowCopy (s : Store F) (v : Value) : Value × Store F :=
  match v with
  | .pair r => match s.cells[r]? with
    | some c => s.cons c.car c.cdr
    | none => (v, s)
  | .vector r => s.newVector (s.vectors[r]?.getD [])
  | .closure r => match s.closures[r]? with
    | some c => s.newClosure c
    | none => (v, s)
  | .primitive r => match s.primitives[r]? with
    | some p => s.newPrimitive p
    | none => (v, s)
  | v => (v, s)

/-! ### Deep copies -/

/-- The objects that an object refers to, in order. -/
def parts (s : Store F) : Object → List Object
  | .cell r => match s.cells[r]? with
    | some c => [c.car, c.cdr].filterMap Value.object?
    | none => []
  | .vector r => (s.vectors[r]?.getD []).filterMap Value.object?
  | .closure r => match s.closures[r]? with
    | some c => [c.formals, c.body].filterMap Value.object? ++ [.frame c.frame]
    | none => []
  | .primitive _ => []
  | .frame r => match s.frames[r]? with
    | some f => f.bindings.filterMap (fun b => b.2.object?) ++ (f.outer.map Object.frame).toList
    | none => []

/-- Adds to `found` an object and all that it leads to, along paths of at
most `depth` objects. -/
def reach (s : Store F) : (depth : Nat) → List Object → Object → Except Fault (List Object)
  | 0, _, _ => .error .tooDeep
  | depth + 1, found, x =>
    if x ∈ found then .ok found else (s.parts x).foldlM (reach s depth) (x :: found)

/-- The places of the objects to copy, by kind, each in increasing
order. -/
structure CopyPlan where
  cells : List Ref
  vectors : List Ref
  closures : List Ref
  primitives : List Ref
  frames : List Ref

/-- Sorts collected objects by kind and place. -/
def CopyPlan.ofObjects (found : List Object) : CopyPlan where
  cells := (found.filterMap fun | .cell r => some r | _ => none).mergeSort
  vectors := (found.filterMap fun | .vector r => some r | _ => none).mergeSort
  closures := (found.filterMap fun | .closure r => some r | _ => none).mergeSort
  primitives := (found.filterMap fun | .primitive r => some r | _ => none).mergeSort
  frames := (found.filterMap fun | .frame r => some r | _ => none).mergeSort

/-- The new place of an object that is copied into a row of `size`
objects; any other stays where it is. -/
def renamed (copied : List Ref) (size : Nat) (r : Ref) : Ref :=
  if r ∈ copied then size + copied.idxOf r else r

/-- A value with all references renamed. -/
def renameValue (s : Store F) (plan : CopyPlan) : Value → Value
  | .pair r => .pair (renamed plan.cells s.cells.size r)
  | .vector r => .vector (renamed plan.vectors s.vectors.size r)
  | .closure r => .closure (renamed plan.closures s.closures.size r)
  | .primitive r => .primitive (renamed plan.primitives s.primitives.size r)
  | v => v

/-- A pair with all references renamed. -/
def renameCell (s : Store F) (plan : CopyPlan) (c : Cell) : Cell :=
  ⟨s.renameValue plan c.car, s.renameValue plan c.cdr⟩

/-- A closure with all references renamed. -/
def renameClosure (s : Store F) (plan : CopyPlan) (c : Closure) : Closure :=
  ⟨s.renameValue plan c.formals, s.renameValue plan c.body,
    renamed plan.frames s.frames.size c.frame⟩

/-- A frame with all references renamed. -/
def renameFrame (s : Store F) (plan : CopyPlan) (f : Frame) : Frame :=
  ⟨f.bindings.map fun (name, v) => (name, s.renameValue plan v),
    f.outer.map (renamed plan.frames s.frames.size)⟩

/-- The store with the copies of the planned objects at its end. -/
def addCopies (s : Store F) (plan : CopyPlan) : Store F :=
  { s with
    cells := s.cells ++ (plan.cells.filterMap fun r => s.cells[r]?.map (s.renameCell plan))
    vectors := s.vectors ++
      (plan.vectors.filterMap fun r => s.vectors[r]?.map fun vs => vs.map (s.renameValue plan))
    closures := s.closures ++
      (plan.closures.filterMap fun r => s.closures[r]?.map (s.renameClosure plan))
    primitives := s.primitives ++ (plan.primitives.filterMap fun r => s.primitives[r]?)
    frames := s.frames ++ (plan.frames.filterMap fun r => s.frames[r]?.map (s.renameFrame plan)) }

/-- A copy of a value and of all that it leads to, along paths of at most
`depth` objects. -/
def deepCopy (s : Store F) (depth : Nat) (v : Value) : Except Fault (Value × Store F) :=
  match v.object? with
  | none => .ok (v, s)
  | some x => do
    let plan := CopyPlan.ofObjects (← s.reach depth [] x)
    .ok (s.renameValue plan v, s.addCopies plan)

end Store

end MiniScheme
