import MiniScheme.Proofs.ReadData
import MiniScheme.Proofs.RigidValues
import MiniScheme.Proofs.Termination

/-!
# `MiniScheme.Proofs.VectorData`: vectors hold what a text can hold

Vectors come from source text, and no operation puts anything into one or takes
anything out. So at every moment of a run each vector is a finite tree, of the
kind that a text can hold (`Store.VectorsTextual`). Such a tree has no
procedures in it, and no NaN, since no word stands for one.

The trees stay because they are rigid: `RigidWorld.unfolds_mono` is the one
bridge. With it a discipline of rigid worlds is one of these worlds, too, and
only loading has to say what the new vectors hold.
-/

set_option autoImplicit false

namespace MiniScheme

open Datum (Textual)

namespace Store

/-- Every vector is a finite tree of a kind that a text can hold. -/
def VectorsTextual (s : Store) : Prop :=
  ∀ r < s.vectors.size, ∃ d, s.Unfolds (.vector r) d ∧ Textual d

/-! ### Loading -/

theorem VectorsTextual.newVector {s : Store} {vs : List Value} {ds : List Datum}
    (h : s.VectorsTextual) (hvs : List.Forall₂ s.Unfolds vs ds) (hds : ∀ d ∈ ds, Textual d) :
    (s.newVector vs).2.VectorsTextual := by
  have hextends := extends_newVector s vs
  obtain ⟨hlen, heach⟩ := Unfolds.forall₂_iff.mp hvs
  intro r hr
  by_cases hold : r < s.vectors.size
  · obtain ⟨d, hd, htextual⟩ := h r hold
    exact ⟨d, hd.mono hextends, htextual⟩
  · obtain rfl : r = s.vectors.size := by
      have hsize : (s.newVector vs).2.vectors.size = s.vectors.size + 1 := Array.size_push _
      omega
    exact ⟨.vector ds, .vector Array.getElem?_push_size hlen
      fun i hi hk => (heach i hi hk).mono hextends, .vector hds⟩

/-- More objects do not change what the vectors hold. -/
theorem VectorsTextual.of_extends {s t : Store} (h : s.VectorsTextual) (hextends : Extends s t)
    (hsize : t.vectors.size = s.vectors.size) : t.VectorsTextual := by
  intro r hr
  obtain ⟨d, hd, htextual⟩ := h r (hsize ▸ hr)
  exact ⟨d, hd.mono hextends, htextual⟩

theorem vectorsTextual_loadItems_of_forall {ds : List Datum}
    (h : ∀ d ∈ ds, ∀ s : Store, s.VectorsTextual → (s.load d).2.VectorsTextual) :
    ∀ s : Store, s.VectorsTextual → (loadItems [] ds s).2.VectorsTextual := by
  induction ds with
  | nil => exact fun s hs => hs
  | cons d ds ih =>
      intro s hs
      rw [loadItems_cons]
      exact ih (fun e he => h e (List.mem_cons_of_mem d he)) _ (h d List.mem_cons_self s hs)

/-- A datum that a text can hold adds such vectors only. -/
theorem vectorsTextual_load (d : Datum) :
    Textual d → ∀ s : Store, s.VectorsTextual → (s.load d).2.VectorsTextual := by
  induction d using Datum.treeInduction with
  | number | symbol | boolean | nil => exact fun _ s hs => hs
  | text t => exact fun _ s hs => hs.of_extends (extends_load (.text t) s) rfl
  | pair car cdr ihcar ihcdr =>
      intro hd s hs
      rw [load_pair]
      cases hd with
      | pair first rest =>
          exact (ihcdr rest _ (ihcar first s hs)).of_extends (extends_cons _ _ _) rfl
  | vector items ih =>
      intro hd s hs
      rw [load_vector]
      cases hd with
      | vector each =>
          have hitems := vectorsTextual_loadItems_of_forall (fun d hd => ih d hd (each d hd)) s hs
          exact hitems.newVector (forall₂_unfolds_loadItems items s) each

end Store

/-! ### Runs -/

namespace RigidWorld

/-- What a rigid value unfolds to stays. -/
theorem unfolds_mono {w w' : RigidWorld} (hle : w ≤ w') {v : Value} {d : Datum}
    (h : w.code.store.Unfolds v d) : w.code.Rigid v → w'.code.store.Unfolds v d := by
  induction h with
  | number n => exact fun _ => .number n
  | text tag t => exact fun _ => .text tag t
  | symbol name => exact fun _ => .symbol name
  | boolean b => exact fun _ => .boolean b
  | nil => exact fun _ => .nil
  | @pair r c _ _ cell _ _ ihcar ihcdr =>
      intro hrigid
      obtain ⟨hcar, hcdr⟩ := hrigid.fields cell
      -- The pair is inert code, which no step changes.
      have hinert : w.code.roles r = .inert := by
        cases hrigid with
        | atom simple => exact simple.elim
        | pair ice => exact ice
      have hkept := hle.1.code r (Array.getElem?_eq_some_iff.mp cell).1
        (by rw [hinert]; exact Role.noConfusion)
      exact .pair (hkept.trans cell) (ihcar hcar) (ihcdr hcdr)
  | vector items same _ ih =>
      intro hrigid
      exact .vector (hle.2 _ _ items) same fun i h k =>
        ih i h k (hrigid.elements items _ (List.get_mem _ _))

/-- Without a new vector, the vectors hold what they held. -/
theorem vectorsTextual_mono {w w' : RigidWorld} (hle : w ≤ w')
    (hsize : w'.code.store.vectors.size = w.code.store.vectors.size)
    (h : w.code.store.VectorsTextual) : w'.code.store.VectorsTextual := by
  intro r hr
  rw [hsize] at hr
  obtain ⟨d, hd, htextual⟩ := h r hr
  exact ⟨d, unfolds_mono hle hd (w.vectors r hr), htextual⟩

end RigidWorld

/-- A rigid world where all vectors hold what a text can hold. -/
abbrev TextualWorld := { w : RigidWorld // w.code.store.VectorsTextual }

namespace TextualWorld

/-- What is asked of a rigid world, where only data of texts are loaded. -/
def demand : Demand TextualWorld where
  store w := w.1.code.store
  Holds w := RigidWorld.demand.Holds w.1
  Visible w := RigidWorld.demand.Visible w.1
  Body w := RigidWorld.demand.Body w.1
  Reads w := RigidWorld.demand.Reads w.1
  Admits := Textual
  admits_read h := (textual_of_mem_read h).1
  holds_mono := RigidWorld.demand.holds_mono
  visible_mono := RigidWorld.demand.visible_mono
  body_mono := RigidWorld.demand.body_mono

/-- A rigid world that follows without a new vector is one of these. -/
theorem next {w : TextualWorld} {w' : RigidWorld} (h : RigidWorld.demand.Next w.1 w')
    {t : Store} (hstore : w'.code.store = t)
    (hsize : t.vectors.size = w.1.code.store.vectors.size) :
    ∃ u : TextualWorld, demand.Next w u ∧ u.1 = w' :=
  ⟨⟨w', RigidWorld.vectorsTextual_mono h.1 (hstore ▸ hsize) w.2⟩, h, rfl⟩

/-- No operation makes a vector. -/
def discipline : Discipline TextualWorld where
  toDemand := demand
  atom := RigidWorld.discipline.atom
  constant := RigidWorld.discipline.constant
  car := RigidWorld.discipline.car
  cdr := RigidWorld.discipline.cdr
  body := RigidWorld.discipline.body
  operands := RigidWorld.discipline.operands
  closure := RigidWorld.discipline.closure
  lookup := RigidWorld.discipline.lookup
  assign hlocate henv hv := by
    obtain ⟨w', hnext, hstore⟩ := RigidWorld.discipline.assign hlocate henv hv
    obtain ⟨u, hu, rfl⟩ := next hnext hstore rfl
    exact ⟨u, hu, hstore⟩
  cons ha hd := by
    obtain ⟨w', hnext, hstore, hpair⟩ := RigidWorld.discipline.cons ha hd
    obtain ⟨u, hu, rfl⟩ := next hnext hstore rfl
    exact ⟨u, hu, hstore, hpair⟩
  setCar hr hv := by
    obtain ⟨w', hnext, hstore⟩ := RigidWorld.discipline.setCar hr hv
    obtain ⟨u, hu, rfl⟩ := next hnext hstore rfl
    exact ⟨u, hu, hstore⟩
  setCdr hr hv := by
    obtain ⟨w', hnext, hstore⟩ := RigidWorld.discipline.setCdr hr hv
    obtain ⟨u, hu, rfl⟩ := next hnext hstore rfl
    exact ⟨u, hu, hstore⟩
  newClosure hformals hbody hframe := by
    obtain ⟨w', hnext, hstore, hclosure⟩ := RigidWorld.discipline.newClosure hformals hbody hframe
    obtain ⟨u, hu, rfl⟩ := next hnext hstore rfl
    exact ⟨u, hu, hstore, hclosure⟩
  newFrame hbindings houter := by
    obtain ⟨w', hnext, hstore, hvisible⟩ := RigidWorld.discipline.newFrame hbindings houter
    obtain ⟨u, hu, rfl⟩ := next hnext hstore rfl
    exact ⟨u, hu, hstore, hvisible⟩
  load {w es d} hd hread := by
    replace hread : RigidWorld.discipline.Reads w.1 es := hread
    obtain ⟨w', hle, hstore, hexpr, hread'⟩ := RigidWorld.discipline.load (d := d) trivial hread
    have htextual : w'.code.store.VectorsTextual := by
      rw [show w'.code.store = _ from hstore]
      exact Store.vectorsTextual_load d hd _ w.2
    exact ⟨⟨w', htextual⟩, hle, hstore, hexpr, hread'⟩

end TextualWorld

end MiniScheme
