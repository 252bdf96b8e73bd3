import MiniScheme.Fault
import MiniScheme.Store
import Std.Data.TreeSet

/-!
# `MiniScheme.Store.Equality`: equality by structure

Numbers are equal by value, strings by text, pairs and vectors by their
parts, and all else by identity. Pairs can form cycles: two pairs whose
comparison has begun already count as equal, so every comparison of pairs
ends. A comparison inside a vector starts afresh.

`Store.equal` takes the nesting that it may use up.
-/

set_option autoImplicit false

namespace MiniScheme

/-- The order of two places first by the left one and then by the right
one. -/
abbrev compareRefs : Ref × Ref → Ref × Ref → Ordering :=
  compareLex (compareOn Prod.fst) (compareOn Prod.snd)

/-- Only equal places are alike in this order. -/
instance : Std.LawfulEqCmp compareRefs where
  eq_of_compare h := by
    simp [compareLex, compareOn, Ordering.then_eq_eq] at h
    exact Prod.ext h.1 h.2

/-- The comparisons of pairs that have begun. -/
abbrev Seen := Std.TreeSet (Ref × Ref) compareRefs

/-- Compares two values and says which comparisons have begun by then. -/
abbrev Comparer := Seen → Value → Value → Except Fault (Bool × Seen)

/-- The number that a value counts as: a foreign boolean is one or
zero. -/
def Value.numeric? : Value → Option Number
  | .number n => some n
  | .foreign (.boolean b) => some (.int (if b then 1 else 0))
  | _ => none

namespace Store

variable {F : Type}

/-- Compares vectors of one length element by element. Elements that are
the same object are equal. -/
def equalItems (element : Comparer) : List Value → List Value → Except Fault Bool
  | v :: vs, w :: ws =>
    if v = w then equalItems element vs ws
    else do
      let (same, _) ← element ∅ v w
      if same then equalItems element vs ws else .ok false
  | _, _ => .ok true

/-- Compares two values that are not both pairs. -/
def equalLeaves (s : Store F) (element : Comparer) (a b : Value) : Except Fault Bool :=
  match a, b with
  | .text _ t, .text _ u => .ok (t = u)
  | .vector r, .vector q =>
    let vs := s.vectors[r]?.getD []
    let ws := s.vectors[q]?.getD []
    if vs.length = ws.length then equalItems element vs ws else .ok false
  | a, b =>
    match a.numeric?, b.numeric? with
    | some m, some n => .ok (m.equal n)
    | _, _ => .ok (a = b)

/-- Compares two chains of pairs element by element, in less than `fuel`
steps. -/
def equalChains (s : Store F) (element : Comparer) : Nat → Comparer
  | 0, _, _, _ => .error .endless
  | fuel + 1, seen, a, b =>
    match a, b, s.cell? a, s.cell? b with
    | .pair r, .pair q, some c, some d =>
      if (r, q) ∈ seen then .ok (true, seen)
      else do
        let (same, seen) ← element (seen.insert (r, q)) c.car d.car
        if same then equalChains s element fuel seen c.cdr d.cdr else .ok (false, seen)
    | a, b, _, _ => do
      let same ← s.equalLeaves element a b
      .ok (same, seen)

/-- Compares two values with at most `depth` levels of nesting. -/
def equalFrom (s : Store F) : (depth : Nat) → Comparer
  | 0 => fun _ _ _ => .error .tooDeep
  | depth + 1 => s.equalChains (equalFrom s depth) (s.cells.size * s.cells.size + 1)

/-- Equality by structure. -/
def equal (s : Store F) (depth : Nat) (a b : Value) : Except Fault Bool :=
  (s.equalFrom depth ∅ a b).map Prod.fst

end Store

end MiniScheme
