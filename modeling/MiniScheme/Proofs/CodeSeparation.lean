import MiniScheme.Proofs.CodeRoles
import MiniScheme.Proofs.GlobalFrame

/-!
# `MiniScheme.Proofs.CodeSeparation`: programs cannot change their code

A program reads expressions from source text and evaluates the very pairs
that the text became. With `set-car!` and `set-cdr!` it can change every
pair that it gets hold of. This file shows that it gets hold of no pair that
belongs to its code.

* `Configuration.IsCode` says which pairs are code: those of an expression
  that was read, of the parameters of a closure or of its body, but not the
  pairs of a quoted datum.
* `Configuration.HoldsDatum` says which values a program has hold of: those
  in frames, those on the way as arguments and results, and the fields of
  all pairs that are not code.
* A `Session` is any number of source texts, evaluated one after the other
  and step by step, each to its end or to its fault.

`code_separated` is about every moment of every session. It follows from the
roles of pairs in `MiniScheme.Proofs.CodeRoles`.
-/

set_option autoImplicit false

namespace MiniScheme

/-! ### What programs have hold of -/

/-- The pair can be reached from the value along fields of pairs. -/
inductive Store.ReachesPair (s : Store) (v : Value) : Ref → Prop
  | self {r : Ref} (same : v = .pair r) : ReachesPair s v r
  | car {r q : Ref} {c : Cell} (before : ReachesPair s v r) (cell : s.cells[r]? = some c)
      (next : c.car = .pair q) : ReachesPair s v q
  | cdr {r q : Ref} {c : Cell} (before : ReachesPair s v r) (cell : s.cells[r]? = some c)
      (next : c.cdr = .pair q) : ReachesPair s v q

/-- The values that what is being done holds: procedures, arguments and
results. -/
def Control.data : Control → List Value
  | .operands _ _ fn done _ => fn :: done
  | .apply _ fn args => fn :: args
  | .walk _ _ _ result _ | .program _ _ result _ _ | .value result => [result]
  | .evaluate .. | .sequence .. | .fault _ => []

/-- The values that what is left to do holds. -/
def Task.data : Task → List Value
  | .operand _ _ fn done _ => fn :: done
  | .choose .. | .assign .. | .call .. | .body .. | .program .. => []

namespace Configuration

/-- The pair belongs to code. -/
def IsCode (c : Configuration) (r : Ref) : Prop :=
  (∃ e ∈ c.read, c.machine.store.CodeCell .expression e r) ∨
  ∃ (q : Ref) (k : Closure), c.machine.store.closures[q]? = some k ∧
    (c.machine.store.CodeCell .inert k.formals r ∨ c.machine.store.CodeCell .operands k.body r)

/-- The program has hold of the value. -/
inductive HoldsDatum (c : Configuration) : Value → Prop
  | control {v : Value} (mem : v ∈ c.control.data) : HoldsDatum c v
  | stack {task : Task} {v : Value} (left : task ∈ c.stack) (mem : v ∈ task.data) : HoldsDatum c v
  | frame {r : Ref} {f : Frame} {b : String × Value} (frame : c.machine.store.frames[r]? = some f)
      (mem : b ∈ f.bindings) : HoldsDatum c b.2
  | car {r : Ref} {fields : Cell} (cell : c.machine.store.cells[r]? = some fields)
      (datum : ¬ c.IsCode r) : HoldsDatum c fields.car
  | cdr {r : Ref} {fields : Cell} (cell : c.machine.store.cells[r]? = some fields)
      (datum : ¬ c.IsCode r) : HoldsDatum c fields.cdr

/-! ### Sessions -/

/-- What can happen next: a step, or another source text once nothing is left
to do. -/
inductive Moves (c : Configuration) : Configuration → Prop
  | step {c' : Configuration} (steps : c.Steps c') : Moves c c'
  | begin (depth : Nat) (env : Ref) (source : String) (done : c.step = none) :
      Moves c (c.begin depth env source)

/-- Source texts are evaluated one after the other. -/
abbrev Session : Configuration → Configuration → Prop := Relation.ReflTransGen Moves

/-- A global frame, and nothing else. -/
def global (primitives : List Primitive) (placeholders : List String)
    (journal : Option (List Event)) : Configuration :=
  rest (outcome (makeGlobal primitives placeholders ⟨{}, journal⟩)) []

theorem session_of_leads {c c' : Configuration} (h : c.Leads c') : c.Session c' :=
  Relation.ReflTransGen.mono (fun _ _ => Moves.step) _ _ h

/-- A session may go on with any call of `run`, which leaves the machine of a
later moment. -/
theorem exists_session_run {c : Configuration} (hdone : c.step = none) (depth : Nat) (env : Ref)
    (source : String) : ∃ c', c.Session c' ∧ c'.step = none ∧
      c'.machine = outcome (run depth env source c.machine) := by
  obtain ⟨read, hleads⟩ := leads_run c depth env source
  refine ⟨_, .head (.begin depth env source hdone) (session_of_leads hleads), ?_, ?_⟩
  · cases run depth env source c.machine <;> rfl
  · cases run depth env source c.machine <;> rfl

/-! ### Code and data at every moment -/

variable {c c' : Configuration} {w : CodeWorld}

theorem reaches_of_moves (h : CodeWorld.discipline.Obeys w c) (hmoves : c.Moves c') :
    CodeWorld.discipline.Reaches w c' := by
  cases hmoves with
  | step steps => exact Discipline.step h steps
  | begin depth env source _ =>
      exact ⟨w, le_refl w, h.store,
        ⟨trivial, CodeWorld.discipline.atom trivial, fun _ => CodeWorld.discipline.admits_read⟩,
        fun _ ht => absurd ht List.not_mem_nil, h.read⟩

theorem reaches_of_session (h : CodeWorld.discipline.Obeys w c) (hsession : c.Session c') :
    CodeWorld.discipline.Reaches w c' := by
  induction hsession with
  | refl => exact ⟨w, le_refl w, h⟩
  | tail _ hmoves ih =>
      obtain ⟨w₁, hle₁, h₁⟩ := ih
      obtain ⟨w₂, hle₂, h₂⟩ := reaches_of_moves h₁ hmoves
      exact ⟨w₂, hle₁.trans hle₂, h₂⟩

/-- At the start there are no pairs and no closures. -/
theorem exists_obeys_global (primitives : List Primitive) (placeholders : List String)
    (journal : Option (List Event)) :
    ∃ w, CodeWorld.discipline.Obeys w (global primitives placeholders journal) := by
  obtain ⟨m, hrun, hadded⟩ := makeGlobal_run primitives placeholders ⟨{}, journal⟩
  obtain ⟨bindings, hframes, hvalues⟩ := hadded.frames
  have hglobal : global primitives placeholders journal = rest m [] := by
    rw [global, hrun]
    rfl
  have hcells : m.store.cells = #[] := hadded.cells
  have hclosures : m.store.closures = #[] := hadded.closures
  refine ⟨⟨m.store, fun _ => .datum, fun r c hc => ?_, fun _ _ _ hcode => absurd rfl hcode,
    fun r f hf b hb => ?_, fun r k hk => ?_⟩, ?_⟩
  · simp [hcells] at hc
  · -- The global frame is the only one.
    have hbindings : f.bindings = bindings := by
      rw [hframes] at hf
      cases r with
      | zero => cases hf; rfl
      | succ r => simp at hf
    rw [hbindings] at hb
    refine Store.plays_of_ne_pair fun q hq => ?_
    rcases hvalues b hb with hvoid | ⟨p, hprimitive, -⟩
    · cases hvoid.symm.trans hq
    · cases hprimitive.symm.trans hq
  · simp [hclosures] at hk
  · rw [hglobal]
    refine ⟨rfl, CodeWorld.discipline.atom trivial, fun _ ht => absurd ht List.not_mem_nil,
      fun _ he => absurd he List.not_mem_nil, fun _ _ hcode => absurd rfl hcode⟩

/-- A pair belongs to code exactly when its role is not that of data. -/
theorem isCode_iff (h : CodeWorld.discipline.Obeys w c) {r : Ref} :
    c.IsCode r ↔ r < w.store.cells.size ∧ w.roles r ≠ .datum := by
  have hstore : w.store = c.machine.store := h.store
  obtain ⟨hread, hcover⟩ := h.read
  -- Code cells are parts of something that has its role, so they have theirs.
  have hplays {role : Role} {v : Value} (hv : w.Plays role v)
      (hcell : c.machine.store.CodeCell role v r) :
      r < w.store.cells.size ∧ w.roles r ≠ .datum := by
    obtain ⟨role', hrole', hpart⟩ := hcell
    rw [← hstore] at hpart
    obtain ⟨hlt, hrole⟩ := CodeWorld.plays_of_part hv hpart r rfl
    exact ⟨hlt, hrole ▸ hrole'⟩
  constructor
  · rintro (⟨e, he, hcell⟩ | ⟨q, k, hk, hcell⟩)
    · exact hplays (hread e he) hcell
    · rw [← hstore] at hk
      obtain ⟨hformals, hbody, -⟩ := w.closures q k hk
      exact hcell.elim (hplays hformals) (hplays hbody)
  · rintro ⟨hlt, hcode⟩
    obtain ⟨e, he, hcell⟩ := hcover r hlt hcode
    exact .inl ⟨e, he, hstore ▸ hcell⟩

theorem plays_of_mem_control {control : Control}
    (h : CodeWorld.discipline.FitsControl w control) {v : Value} (hv : v ∈ control.data) :
    w.Plays .datum v := by
  cases control with
  | operands =>
      rcases List.mem_cons.mp hv with rfl | hv
      · exact h.2.1
      · exact h.2.2.1 v hv
  | apply =>
      rcases List.mem_cons.mp hv with rfl | hv
      · exact h.1
      · exact h.2 v hv
  | walk | program => exact List.mem_singleton.mp hv ▸ h.2.1
  | value => exact List.mem_singleton.mp hv ▸ h
  | evaluate | sequence | fault => exact absurd hv List.not_mem_nil

theorem plays_of_mem_task {task : Task} (h : CodeWorld.discipline.FitsTask w task) {v : Value}
    (hv : v ∈ task.data) : w.Plays .datum v := by
  cases task with
  | operand =>
      rcases List.mem_cons.mp hv with rfl | hv
      · exact h.2.1
      · exact h.2.2.1 v hv
  | choose | assign | call | body | program => exact absurd hv List.not_mem_nil

/-- All that a program has hold of are data. -/
theorem plays_of_holdsDatum (h : CodeWorld.discipline.Obeys w c) {v : Value}
    (hv : c.HoldsDatum v) : w.Plays .datum v := by
  have hstore : w.store = c.machine.store := h.store
  have hdatum {r : Ref} {cell : Cell} (hcell : w.store.cells[r]? = some cell)
      (hr : ¬ c.IsCode r) : w.roles r = .datum := by
    by_contra hcode
    exact hr ((isCode_iff h).mpr ⟨(Array.getElem?_eq_some_iff.mp hcell).1, hcode⟩)
  cases hv with
  | control mem => exact plays_of_mem_control h.control mem
  | stack left mem => exact plays_of_mem_task (h.stack _ left) mem
  | frame frame mem =>
      rw [← hstore] at frame
      exact w.frames _ _ frame _ mem
  | car cell hr =>
      rw [← hstore] at cell
      have hcar := (w.cells _ _ cell).1
      rwa [hdatum cell hr] at hcar
  | cdr cell hr =>
      rw [← hstore] at cell
      have hcdr := (w.cells _ _ cell).2
      rwa [hdatum cell hr] at hcdr

theorem plays_of_reachesPair {v : Value} (hv : w.Plays .datum v) {r : Ref}
    (h : w.store.ReachesPair v r) : w.Plays .datum (.pair r) := by
  induction h with
  | self same => exact same ▸ hv
  | car _ cell next ih =>
      have hcar := (w.cells _ _ cell).1
      rw [(ih _ rfl).2] at hcar
      exact next ▸ hcar
  | cdr _ cell next ih =>
      have hcdr := (w.cells _ _ cell).2
      rw [(ih _ rfl).2] at hcdr
      exact next ▸ hcdr

end Configuration

/-! ### Walks along bodies -/

/-- Evaluates expressions from left to right and gives the last value;
`result` is the one before. -/
def evalItems (ev : Evaluator) (env : Ref) : (result : Value) → List Value → Eval Value
  | result, [] => return result
  | _, e :: es => do
    let v ← ev env e
    evalItems ev env v es

/-- A walk along a body visits the elements of the list that it is at the
start: what is evaluated on the way does not change it. -/
theorem evalBody_eq_evalItems (depth : Nat) (env : Ref) (items : List Value) :
    ∀ {fuel : Nat} {result body : Value} {m : Machine} {w : CodeWorld} {es : List Value},
      w.store = m.store → CodeWorld.discipline.Reads w es → w.Plays .operands body →
      w.store.Spine body items .nil → items.length < fuel →
      evalBody (evaluate depth) env fuel result body m
        = evalItems (evaluate depth) env result items m := by
  -- On the elements of the list as it is at the start. The invariant is the
  -- world of the machine at hand, where the rest of the body is still code.
  induction items with
  | nil =>
      intro fuel result body m w es hstore _ _ hspine hfuel
      obtain ⟨fuel, rfl⟩ : ∃ n, fuel = n + 1 := ⟨fuel - 1, by omega⟩
      have hcell : m.store.cell? body = none := by
        rw [hspine.eq_last]
        rfl
      rw [evalBody, inquire_bind_run, hcell]
      rfl
  | cons e items ih =>
      intro fuel result body m w es hstore hread hbody hspine hfuel
      obtain ⟨fuel, rfl⟩ : ∃ n, fuel = n + 1 := ⟨fuel - 1, by omega⟩
      cases hspine with
      | @link _ _ c _ cell rest =>
          obtain ⟨r, rfl, hr⟩ := Store.cell?_eq_some cell
          obtain ⟨hlt, hrole⟩ := hbody r rfl
          have hcell : m.store.cell? (.pair r) = some c := hstore ▸ cell
          rw [evalBody, inquire_bind_run,
            hcell, evalItems]
          have henv : CodeWorld.discipline.Visible w env := trivial
          have hcdr : w.Plays .operands c.cdr := CodeWorld.discipline.cdr hr hbody
          obtain ⟨w', hle, hstore', hread', -⟩ := Discipline.evaluate (m := m) hstore hread henv
            (CodeWorld.discipline.car hr hbody) depth
          dsimp only
          rw [bind_run, bind_run]
          cases heval : evaluate depth env c.car m with
          | error f m' => rfl
          | ok v m' =>
              have hstore'' : w'.store = m'.store := by
                rw [show w'.store = _ from hstore', heval]
                rfl
              -- The pair just visited is code, so it still has the same rest.
              have hkept : m'.store.cdrOf (.pair r) = c.cdr := by
                have hcell' : m'.store.cell? (.pair r) = some c := by
                  rw [← hstore'']
                  exact (hle.code r hlt (by simp [hrole])).trans hr
                simp [Store.cdrOf, hcell']
              dsimp only
              rw [inquire_bind_run,
                hkept]
              rw [List.length_cons] at hfuel
              exact ih hstore'' hread' (hcdr.grown hle) (CodeWorld.spine_kept hle.code rest hcdr)
                (by omega)

/-- A sequence evaluates the elements of the list that it starts with. -/
theorem evalSequence_eq_evalItems (depth : Nat) (env : Ref) {body : Value} {m : Machine}
    {w : CodeWorld} {es items : List Value} (hstore : w.store = m.store)
    (hread : CodeWorld.discipline.Reads w es) (hbody : w.Plays .operands body)
    (hspine : w.store.Spine body items .nil) :
    evalSequence (evaluate depth) env body m
      = evalItems (evaluate depth) env .emptySequence items m := by
  have hlength := hspine.length_le
  have hlimit : 0 < walkLimit := by decide
  rw [hstore] at hlength
  rw [evalSequence, inquire_bind_run]
  exact evalBody_eq_evalItems depth env items hstore hread hbody hspine (by omega)

/-! ### Separation -/

/-- **Programs cannot change their code.** At every moment of every session
that starts with a global frame:

* no pair that is code can be reached, along fields of pairs, from anything
  that the program has hold of;
* at every later moment, the pairs that are code have the same fields, and
  every closure has the same parameters and a body that is the same proper
  list;
* a body that is about to be evaluated is a proper list, and evaluating it
  means evaluating the elements of that list one after the other. -/
theorem code_separated (primitives : List Primitive) (placeholders : List String)
    (journal : Option (List Event)) (c : Configuration)
    (h : (Configuration.global primitives placeholders journal).Session c) :
    (∀ v, c.HoldsDatum v → ∀ r, c.machine.store.ReachesPair v r → ¬ c.IsCode r) ∧
    (∀ c', c.Session c' →
      (∀ r, c.IsCode r → c'.IsCode r ∧
        c'.machine.store.cells[r]? = c.machine.store.cells[r]?) ∧
      ∀ (q : Ref) (k : Closure), c.machine.store.closures[q]? = some k →
        c'.machine.store.closures[q]? = some k ∧
        ∃ items, c.machine.store.spine? k.body = some (items, .nil) ∧
          c'.machine.store.spine? k.body = some (items, .nil)) ∧
    (∀ depth env body, c.control = .sequence depth env body →
      ∃ items, c.machine.store.spine? body = some (items, .nil) ∧
        evalSequence (evaluate depth) env body c.machine
          = evalItems (evaluate depth) env .emptySequence items c.machine) := by
  obtain ⟨w₀, hstart⟩ := Configuration.exists_obeys_global primitives placeholders journal
  obtain ⟨w, -, hobeys⟩ := Configuration.reaches_of_session hstart h
  have hstore : w.store = c.machine.store := hobeys.store
  refine ⟨fun v hv r hr hcode => ?_, fun c' hlater => ?_, fun depth env body hcontrol => ?_⟩
  · -- From data, fields lead to data.
    rw [← hstore] at hr
    have hdatum := Configuration.plays_of_reachesPair
      (Configuration.plays_of_holdsDatum hobeys hv) hr
    exact ((Configuration.isCode_iff hobeys).mp hcode).2 (hdatum r rfl).2
  · -- Later worlds keep the roles, and with them the code.
    obtain ⟨w', hle, hobeys'⟩ := Configuration.reaches_of_session hobeys hlater
    have hstore' : w'.store = c'.machine.store := hobeys'.store
    rw [← hstore, ← hstore']
    refine ⟨fun r hcode => ?_, fun q k hk => ⟨hle.closures q k hk, ?_⟩⟩
    · obtain ⟨hlt, hrole⟩ := (Configuration.isCode_iff hobeys).mp hcode
      refine ⟨(Configuration.isCode_iff hobeys').mpr ⟨Nat.lt_of_lt_of_le hlt hle.size, ?_⟩,
        hle.code r hlt hrole⟩
      rwa [hle.roles r hlt]
    · obtain ⟨-, hbody, items, hspine⟩ := w.closures q k hk
      exact ⟨items, Store.spine?_eq_some_iff.mpr hspine,
        Store.spine?_eq_some_iff.mpr (CodeWorld.spine_kept hle.code hspine hbody)⟩
  · -- A body is a proper list whenever its evaluation starts.
    have hfits := hobeys.control
    rw [hcontrol] at hfits
    obtain ⟨-, hbody, items, hspine⟩ := hfits
    refine ⟨items, ?_, evalSequence_eq_evalItems depth env hstore hobeys.read hbody hspine⟩
    rw [← hstore]
    exact Store.spine?_eq_some_iff.mpr hspine

/-- A program that changes a quoted list, after it has run. -/
theorem code_separated_quotation :
    ∃ c : Configuration,
      c.machine = outcome (run 50 0 "(begin (set! it '(1 2)) (set-car! it it))"
        (Configuration.global standardPrimitives ["it"] none).machine) ∧
      ∀ v, c.HoldsDatum v → ∀ r, c.machine.store.ReachesPair v r → ¬ c.IsCode r := by
  obtain ⟨c, hsession, -, hmachine⟩ := Configuration.exists_session_run
    (c := Configuration.global standardPrimitives ["it"] none) rfl 50 0
    "(begin (set! it '(1 2)) (set-car! it it))"
  exact ⟨c, hmachine, (code_separated standardPrimitives ["it"] none c hsession).1⟩

end MiniScheme
