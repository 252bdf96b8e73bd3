import MiniScheme.Datum
import MiniScheme.Store

/-!
# `MiniScheme.Store.Load`: data become objects

`Store.load` puts a datum into a store. Every pair and vector of it becomes
an object of its own, so what it makes is fresh and shares nothing, except
for the strings that the host shares.
-/

set_option autoImplicit false

namespace MiniScheme.Store

variable {F : Type}

mutual

/-- Loads a datum and puts the elements in `front`, the last one first,
before it. -/
def loadBehind (front : List Value) : Datum → Store F → Value × Store F
  | .number n, s => s.consAll front (.number n)
  | .text t, s => let (v, s) := s.newString t; s.consAll front v
  | .symbol name, s => s.consAll front (.symbol name)
  | .boolean b, s => s.consAll front (.boolean b)
  | .nil, s => s.consAll front .nil
  | .pair car cdr, s => let (v, s) := loadBehind [] car s; loadBehind (v :: front) cdr s
  | .vector items, s =>
    let (vs, s) := loadItems [] items s
    let (v, s) := s.newVector vs
    s.consAll front v

/-- Loads data one after the other; `done` are those before, the last one
first. -/
def loadItems (done : List Value) : List Datum → Store F → List Value × Store F
  | [], s => (done.reverse, s)
  | d :: ds, s => let (v, s) := loadBehind [] d s; loadItems (v :: done) ds s

end

/-- Puts a datum into the store. -/
def load (s : Store F) (d : Datum) : Value × Store F := loadBehind [] d s

end MiniScheme.Store
