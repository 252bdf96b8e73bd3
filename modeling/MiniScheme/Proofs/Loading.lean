import MiniScheme.Store.Load

/-!
# `MiniScheme.Proofs.Loading`: what loading a datum adds to a store

`Store.load` is written with an accumulator, so that long lists take no
stack. This file gives its plain equations, one for each kind of datum
(`load_pair`, `load_vector` and the atoms), and the rule of induction over
data that goes with them, `Datum.treeInduction`.

The frame condition is `extends_load`: loading only adds pairs, vectors
and strings. Every object that was there keeps its contents
(`Store.Extends`), and closures, frames and primitives are not touched at
all.
-/

set_option autoImplicit false

namespace MiniScheme

/-! ### Induction over data -/

/-- Induction over a datum, where a vector may use the statement for each
of its elements. Data nest through lists, so the type's own rule carries a
second statement, about lists of data. -/
theorem Datum.treeInduction {motive : Datum → Prop}
    (number : ∀ n, motive (.number n)) (text : ∀ t, motive (.text t))
    (symbol : ∀ name, motive (.symbol name)) (boolean : ∀ b, motive (.boolean b))
    (nil : motive .nil)
    (pair : ∀ car cdr, motive car → motive cdr → motive (.pair car cdr))
    (vector : ∀ items, (∀ d ∈ items, motive d) → motive (.vector items)) (d : Datum) :
    motive d := by
  refine @Datum.rec motive (fun items => ∀ d ∈ items, motive d) number text symbol boolean nil
    pair vector ?_ ?_ d
  · intro d hd
    exact absurd hd List.not_mem_nil
  · intro first rest hfirst hrest d hd
    rcases List.mem_cons.mp hd with rfl | hd
    · exact hfirst
    · exact hrest d hd

namespace Store

variable {F : Type}

/-! ### The equations of loading -/

/-- The elements in front are put before the datum once it is loaded. -/
theorem loadBehind_eq (d : Datum) :
    ∀ (front : List Value) (s : Store F),
      loadBehind front d s = (s.load d).2.consAll front (s.load d).1 := by
  induction d using Datum.treeInduction with
  | number | text | symbol | boolean | nil => intro front s; rfl
  | pair car cdr _ ihcdr =>
      intro front s
      simp only [load, loadBehind]
      rw [ihcdr, ihcdr [(loadBehind [] car s).1]]
      rfl
  | vector items _ => intro front s; rfl

/-- A pair is loaded by loading its first part, then its second, and then
making the pair. -/
theorem load_pair (s : Store F) (car cdr : Datum) :
    s.load (.pair car cdr)
      = ((s.load car).2.load cdr).2.cons (s.load car).1 ((s.load car).2.load cdr).1 := by
  show loadBehind [(s.load car).1] cdr (s.load car).2 = _
  rw [loadBehind_eq]
  rfl

/-- Loading several data: those before stay in front. -/
theorem loadItems_eq (ds : List Datum) :
    ∀ (done : List Value) (s : Store F),
      loadItems done ds s = (done.reverse ++ (loadItems [] ds s).1, (loadItems [] ds s).2) := by
  induction ds with
  | nil => intro done s; simp [loadItems]
  | cons d ds ih =>
      intro done s
      simp only [loadItems]
      rw [ih, ih [(loadBehind [] d s).1]]
      simp

/-- Several data are loaded one after the other. -/
theorem loadItems_cons (d : Datum) (ds : List Datum) (s : Store F) :
    loadItems [] (d :: ds) s
      = ((s.load d).1 :: (loadItems [] ds (s.load d).2).1, (loadItems [] ds (s.load d).2).2) := by
  show loadItems [(s.load d).1] ds (s.load d).2 = _
  rw [loadItems_eq]
  rfl

/-- A vector is loaded by loading its elements and then making the
vector. -/
theorem load_vector (s : Store F) (items : List Datum) :
    s.load (.vector items) = (loadItems [] items s).2.newVector (loadItems [] items s).1 := rfl

/-! ### Stores that only grow -/

/-- Every object of the first store is in the second, with the same
contents. -/
structure Extends (s t : Store F) : Prop where
  cells : ∀ {r : Ref} {c}, s.cells[r]? = some c → t.cells[r]? = some c
  vectors : ∀ {r : Ref} {vs}, s.vectors[r]? = some vs → t.vectors[r]? = some vs
  closures : t.closures = s.closures
  frames : t.frames = s.frames
  primitives : t.primitives = s.primitives

namespace Extends

/-- A store extends itself. -/
protected theorem refl (s : Store F) : Extends s s := ⟨id, id, rfl, rfl, rfl⟩

/-- Growth in two steps is growth. -/
protected theorem trans {s t u : Store F} (h : Extends s t) (k : Extends t u) : Extends s u where
  cells := fun hr => k.cells (h.cells hr)
  vectors := fun hr => k.vectors (h.vectors hr)
  closures := k.closures.trans h.closures
  frames := k.frames.trans h.frames
  primitives := k.primitives.trans h.primitives

end Extends

/-- An element of an array keeps its place when another is added. -/
theorem getElem?_push_of_some {α : Type} {xs : Array α} {r : Nat} {x : α} (y : α)
    (h : xs[r]? = some x) : (xs.push y)[r]? = some x := by
  have hr : r < xs.size := (Array.getElem?_eq_some_iff.mp h).1
  rw [Array.getElem?_push, if_neg (Nat.ne_of_lt hr), h]

/-- A new pair extends the store. -/
theorem extends_cons (s : Store F) (car cdr : Value) : Extends s (s.cons car cdr).2 :=
  ⟨getElem?_push_of_some _, id, rfl, rfl, rfl⟩

/-- A new vector extends the store. -/
theorem extends_newVector (s : Store F) (items : List Value) : Extends s (s.newVector items).2 :=
  ⟨id, getElem?_push_of_some _, rfl, rfl, rfl⟩

/-- Loading several data extends the store when loading each one does. -/
theorem extends_loadItems_of_forall {ds : List Datum}
    (h : ∀ d ∈ ds, ∀ s : Store F, Extends s (s.load d).2) :
    ∀ s : Store F, Extends s (loadItems [] ds s).2 := by
  induction ds with
  | nil => intro s; exact .refl s
  | cons d ds ih =>
      intro s
      rw [loadItems_cons]
      exact (h d List.mem_cons_self s).trans (ih (fun e he => h e (List.mem_cons_of_mem d he)) _)

/-- Loading a datum extends the store. -/
theorem extends_load (d : Datum) : ∀ s : Store F, Extends s (s.load d).2 := by
  induction d using Datum.treeInduction with
  | number | symbol | boolean | nil => intro s; exact .refl s
  | text t => intro s; exact ⟨id, id, rfl, rfl, rfl⟩
  | pair car cdr ihcar ihcdr =>
      intro s
      rw [load_pair]
      exact ((ihcar s).trans (ihcdr _)).trans (extends_cons _ _ _)
  | vector items ih =>
      intro s
      rw [load_vector]
      exact (extends_loadItems_of_forall ih s).trans (extends_newVector _ _)

/-- Loading several data extends the store. -/
theorem extends_loadItems (ds : List Datum) (s : Store F) : Extends s (loadItems [] ds s).2 :=
  extends_loadItems_of_forall (fun d _ => extends_load d) s

end Store

end MiniScheme
