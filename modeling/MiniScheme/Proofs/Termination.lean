import MiniScheme.Proofs.FrameStability
import MiniScheme.Proofs.TreeAgreement

/-!
# `MiniScheme.Proofs.Termination`: every program ends

Nesting is limited, but that alone does not make a program end. Several loops
follow pairs from one to the next without a look at where they have been, and
programs can make lists circular. This file shows that they never make such a
list where one of these loops looks.

* Steps end (`Configuration.Halts`): there is no endless sequence of them.
* `Configuration.Follows` are the chains of pairs that the next step follows.
  They are all code, and chains of code end (`CodeWorld.exists_spine`).
* Frames lie inside each other up to an outermost one.
* Printing marks where a cycle closes, so it ends everywhere
  (`Store.PrintingEnds`).

A walk that would not end is a fault here, and so is a primitive that is
declared wrongly. `programs_terminate` says that neither fault comes up:
a program ends with a value or with an ordinary fault. That is inherited from
the interpreter that runs trees, where nothing is walked along.
-/

set_option autoImplicit false

namespace MiniScheme

namespace Configuration

/-! ### Steps -/

/-- There is no endless sequence of steps from here. -/
def Halts (c : Configuration) : Prop := Acc (fun c' c => c.Steps c') c

variable {c c' : Configuration}

theorem halts_of_done (h : c.step = none) : c.Halts := by
  refine .intro c fun c' hstep => ?_
  cases h.symm.trans hstep

/-- There is one step at most, so steps that lead to an end are all there
are. -/
theorem halts_of_leads (hleads : c.Leads c') (hdone : c'.step = none) : c.Halts := by
  induction hleads using Relation.ReflTransGen.head_induction_on with
  | refl => exact halts_of_done hdone
  | @head c c₁ hstep _ ih =>
      refine .intro c fun c₂ hstep' => ?_
      obtain rfl : c₁ = c₂ := Option.some.inj (hstep.symm.trans hstep')
      exact ih

theorem halts_begin (c : Configuration) (depth : Nat) (env : Ref) (source : String) :
    (c.begin depth env source).Halts := by
  obtain ⟨read, hleads⟩ := leads_run c depth env source
  refine halts_of_leads hleads ?_
  cases run depth env source c.machine <;> rfl

/-! ### Moments -/

/-- What can happen next: a step, or another source text in a frame that is
there, once nothing is left to do. -/
inductive Advances (c : Configuration) : Configuration → Prop
  | step {c' : Configuration} (steps : c.Steps c') : Advances c c'
  | begin (depth : Nat) (env : Ref) (source : String) (done : c.step = none)
      (there : env < c.machine.store.frames.size) : Advances c (c.begin depth env source)

/-- The second configuration is a moment of a run of source texts that starts
with the first. -/
abbrev Attains : Configuration → Configuration → Prop := Relation.ReflTransGen Advances

theorem halts_of_attains (hstart : c.Halts) (h : c.Attains c') : c'.Halts := by
  induction h with
  | refl => exact hstart
  | tail _ hadvance ih =>
      cases hadvance with
      | step steps => exact ih.inv steps
      | begin depth env source => exact halts_begin _ depth env source

/-- A discipline that allows for all frames is kept at every moment. -/
theorem reaches_of_attains {World : Type} [Preorder World] {D : Discipline World} {w : World}
    (hvisible : ∀ (w : World) (env : Ref), env < (D.store w).frames.size → D.Visible w env)
    (hobeys : D.Obeys w c) (h : c.Attains c') : D.Reaches w c' := by
  induction h with
  | refl => exact ⟨w, le_refl w, hobeys⟩
  | tail _ hadvance ih =>
      obtain ⟨w₁, hle₁, h₁⟩ := ih
      -- A step keeps the discipline, and a source text begins with nothing to do.
      cases hadvance with
      | step steps =>
          obtain ⟨w₂, hle₂, h₂⟩ := Discipline.step h₁ steps
          exact ⟨w₂, hle₁.trans hle₂, h₂⟩
      | begin depth env source _ there =>
          rw [← h₁.store] at there
          exact ⟨w₁, hle₁, h₁.store, ⟨hvisible w₁ env there, D.atom trivial, fun _ => D.admits_read⟩,
            fun _ ht => absurd ht List.not_mem_nil, h₁.read⟩

/-- Any source text may be run next, and its machine is that of a later
moment. -/
theorem exists_attains_run (hdone : c.step = none) (depth : Nat) (env : Ref) (source : String)
    (there : env < c.machine.store.frames.size) :
    ∃ c', c.Attains c' ∧ c'.step = none ∧
      c'.machine = outcome (run depth env source c.machine) := by
  obtain ⟨read, hleads⟩ := leads_run c depth env source
  refine ⟨_, .head (.begin depth env source hdone there)
    (Relation.ReflTransGen.mono (fun _ _ => Advances.step) _ _ hleads), ?_, ?_⟩
  · cases run depth env source c.machine <;> rfl
  · cases run depth env source c.machine <;> rfl

/-! ### Chains of pairs -/

/-- The next step follows the chain of pairs that starts with this value. -/
inductive Follows (c : Configuration) : Value → Prop
  /-- The operands of a special form are taken. -/
  | form {depth : Nat} {env : Ref} {expr : Value} {cell : Cell} {form : Form}
      (control : c.control = .evaluate (depth + 1) env expr)
      (pair : c.machine.store.cell? expr = some cell) (head : Form.ofHead? cell.car = some form) :
      Follows c cell.cdr
  /-- The operands of a call are taken. -/
  | call {depth : Nat} {env : Ref} {expr tail v : Value} {stack : List Task}
      (control : c.control = .value v) (next : c.stack = .call depth env expr tail :: stack) :
      Follows c tail
  /-- Parameters are paired with values, or counted. -/
  | formals {depth : Nat} {r : Ref} {k : Closure} {args : List Value}
      (control : c.control = .apply depth (.closure r) args)
      (closure : c.machine.store.closures[r]? = some k) : Follows c k.formals
  /-- A body is evaluated, or the rest of one. -/
  | sequence {depth : Nat} {env : Ref} {body : Value}
      (control : c.control = .sequence depth env body) : Follows c body
  | walk {depth fuel : Nat} {env : Ref} {result body : Value}
      (control : c.control = .walk depth env fuel result body) : Follows c body
  | body {depth fuel : Nat} {env : Ref} {v body : Value} {stack : List Task}
      (control : c.control = .value v) (next : c.stack = .body depth env fuel body :: stack) :
      Follows c body

/-- What a step follows is code. -/
theorem plays_of_follows {w : CodeWorld} (h : CodeWorld.discipline.Obeys w c) {v : Value}
    (hv : c.Follows v) : ∃ role, role ≠ .datum ∧ w.Plays role v := by
  have hstore : w.store = c.machine.store := h.store
  have hcontrol := h.control
  cases hv with
  | @form depth env expr cell form control pair head =>
      rw [control] at hcontrol
      rw [← hstore] at pair
      obtain ⟨r, rfl, hr⟩ := Store.cell?_eq_some pair
      obtain ⟨-, hrole⟩ := hcontrol.2 r rfl
      exact ⟨_, Role.onCdr_ne_datum (by simp [hrole]) cell, (w.cells r cell hr).2⟩
  | @call depth env expr _ _ _ _ next =>
      have htask := h.stack (.call depth env expr v) (by simp [next])
      exact ⟨.operands, by decide, htask.2⟩
  | formals control closure =>
      rw [← hstore] at closure
      exact ⟨.inert, by decide, (w.closures _ _ closure).1⟩
  | sequence control =>
      rw [control] at hcontrol
      exact ⟨.operands, by decide, hcontrol.2.1⟩
  | walk control =>
      rw [control] at hcontrol
      exact ⟨.operands, by decide, hcontrol.2.2⟩
  | @body depth fuel env _ _ _ _ next =>
      have htask := h.stack (.body depth env fuel v) (by simp [next])
      exact ⟨.operands, by decide, htask.2⟩

end Configuration

/-! ### Printing -/

/-- Printing ends, whatever is printed: its faults are limits. -/
structure Store.PrintingEnds (s : Store) : Prop where
  write : ∀ depth v f, s.write depth v = .error f → IsLimit f
  inspect : ∀ depth v f, s.inspect depth v = .error f → IsLimit f
  display : ∀ depth v f, s.display depth v = .error f → IsLimit f
  showFrame : ∀ depth r f, s.showFrame depth r = .error f → IsLimit f

theorem Store.printingEnds (s : Store) : s.PrintingEnds where
  write depth v := (settles_write (.refl s) (Nat.le_refl depth) v).limit
  inspect depth v := (settles_inspect (.refl s) (Nat.le_refl depth) v).limit
  display depth v := (settles_display (.refl s) (Nat.le_refl depth) v).limit
  showFrame depth r := (settles_showFrame (.refl s) (Nat.le_refl depth) r).limit

/-! ### Primitives -/

/-- A store, as one with certain primitives. -/
structure PrimitiveWorld where
  store : Store

instance : Preorder PrimitiveWorld where
  le w w' := w'.store.primitives = w.store.primitives
  le_refl _ := rfl
  le_trans _ _ _ h k := Eq.trans k h

/-- Nothing is asked of values and frames. -/
def primitiveDemand : Demand PrimitiveWorld where
  store w := w.store
  Holds _ _ _ := True
  Visible _ _ := True
  Body _ _ := True
  Reads _ _ := True
  holds_mono _ _ := trivial
  visible_mono _ _ := trivial
  body_mono _ _ := trivial

theorem PrimitiveWorld.of_eq (w : PrimitiveWorld) {t : Store}
    (h : t.primitives = w.store.primitives) :
    ∃ w', primitiveDemand.Next w w' ∧ primitiveDemand.store w' = t :=
  ⟨⟨t⟩, ⟨h, fun _ _ => trivial⟩, rfl⟩

/-- No operation makes or changes a primitive. -/
def primitiveDiscipline : Discipline PrimitiveWorld where
  toDemand := primitiveDemand
  atom _ := trivial
  constant _ _ := trivial
  car _ _ := trivial
  cdr _ _ := trivial
  body _ _ := trivial
  operands _ := trivial
  closure _ _ := ⟨trivial, trivial⟩
  lookup _ _ := trivial
  assign {w _ _ _ _} _ _ _ := w.of_eq rfl
  cons {w a d} _ _ := ⟨⟨(w.store.cons a d).2⟩, ⟨rfl, fun _ _ => trivial⟩, rfl, trivial⟩
  setCar {w _ _} _ _ := w.of_eq rfl
  setCdr {w _ _} _ _ := w.of_eq rfl
  newClosure {w k} _ _ _ :=
    ⟨⟨(w.store.newClosure k).2⟩, ⟨rfl, fun _ _ => trivial⟩, rfl, trivial⟩
  newFrame {w bindings outer} _ _ :=
    ⟨⟨(w.store.newFrame ⟨bindings, some outer⟩).2⟩, ⟨rfl, fun _ _ => trivial⟩, rfl, trivial⟩
  load {w _ d} _ _ :=
    ⟨⟨(w.store.load d).2⟩, (Store.extends_load d w.store).primitives, rfl, trivial, trivial⟩

/-! ### Faults of programs -/

/-- A text that cannot be read has an ordinary fault. -/
theorem isOrdinary_of_read {depth : Nat} {source : String} {f : Fault}
    (h : (read depth source).2 = some f) : f.IsOrdinary := by
  rw [read_eq_readTokens] at h
  obtain ⟨data, hwhole | ⟨form, hunfinished⟩ | ⟨g, hrefused⟩⟩ := Row.cases depth (lex source).1
  · rw [hwhole.read] at h
    obtain ⟨e, -, rfl⟩ := Option.map_eq_some_iff.mp h
    exact .error trivial
  · rw [hunfinished.read] at h
    cases h
    exact .error trivial
  · rw [hrefused.read_self] at h
    cases h
    cases hrefused.final with
    | tooDeep => exact .tooDeep
    | reading => exact .error trivial

/-- Data that are evaluated have ordinary faults, as their trees do. -/
theorem failsOrdinarily_evalData (depth : Nat) (env : Ref) (data : List Datum) :
    ∀ {w : CodeWorld} {m : Machine} {t : TreeMachine} (result : Value), Mirrors w m t →
      FailsOrdinarily (evalData depth env result data) m := by
  induction data with
  | nil => intro w m t result _; exact .pure _
  | cons d data ih =>
      intro w m t result hm
      have hends := endAlike_datum depth env hm d
      rw [evalData_cons]
      refine .bind (fun f k hf => ?_) fun v k hv => ?_
      · rw [hf] at hends
        generalize executeDatum depth env d t = second at hends
        cases hends with
        | fault _ _ ordinary => exact ordinary
      · rw [hv] at hends
        generalize executeDatum depth env d t = second at hends
        cases hends with
        | value _ mirrors _ => exact ih v mirrors

theorem failsOrdinarily_run (depth : Nat) (env : Ref) (source : String) {w : CodeWorld}
    {m : Machine} {t : TreeMachine} (hm : Mirrors w m t) :
    FailsOrdinarily (run depth env source) m := by
  obtain ⟨data, fault, hread⟩ : ∃ data fault, read depth source = (data, fault) := ⟨_, _, rfl⟩
  rw [run_eq hread]
  refine .bind (failsOrdinarily_evalData depth env data .emptySequence hm) fun v k _ => ?_
  cases fault with
  | none => exact .pure v
  | some f => exact .throw (isOrdinary_of_read (by rw [hread]))

/-- At every moment the primitives are those of the global frame. -/
theorem isDeclared_of_attains {placeholders : List String} {journal : Option (List Event)}
    {c : Configuration}
    (h : (Configuration.global standardPrimitives placeholders journal).Attains c) :
    ∀ p ∈ c.machine.store.primitives, p.IsDeclared := by
  have hdeclared := isDeclared_globalMachine placeholders journal
  have hstart : (Configuration.rest (globalMachine placeholders journal) []).Attains c := h
  generalize globalMachine placeholders journal = m at hdeclared hstart
  have hobeys : primitiveDiscipline.Obeys ⟨m.store⟩ (.rest m []) :=
    ⟨rfl, trivial, fun _ ht => absurd ht List.not_mem_nil, trivial⟩
  obtain ⟨w, hle, hlater⟩ := Configuration.reaches_of_attains (fun _ _ _ => trivial) hobeys hstart
  have hkept : c.machine.store.primitives = m.store.primitives := by
    rw [← show w.store = c.machine.store from hlater.store]
    exact hle
  rw [hkept]
  exact hdeclared

/-- At every moment frames lie inside finitely many others. -/
theorem rooted_of_attains {primitives : List Primitive} {placeholders : List String}
    {journal : Option (List Event)} {c : Configuration}
    (h : (Configuration.global primitives placeholders journal).Attains c) :
    c.machine.store.Rooted := by
  have hrooted := rooted_makeGlobal (m := ⟨{}, journal⟩) .empty primitives placeholders
  rw [Configuration.global] at h
  generalize outcome (makeGlobal primitives placeholders ⟨{}, journal⟩) = m at h hrooted
  have hobeys : (frameDiscipline True).Obeys ⟨m.store, fun _ => hrooted⟩ (.rest m []) :=
    ⟨rfl, trivial, fun _ ht => absurd ht List.not_mem_nil, trivial⟩
  obtain ⟨w, -, hlater⟩ := Configuration.reaches_of_attains (fun _ _ hlt _ => hlt) hobeys h
  rw [← show w.store = c.machine.store from hlater.store]
  exact w.rooted trivial

/-- A program ends with a value or with an ordinary fault. -/
def Settled (result : EStateM.Result Fault Machine Value) : Prop :=
  (∃ v m, result = .ok v m) ∨ ∃ f m, result = .error f m ∧ f.IsOrdinary

/-- **Every program ends.** At every moment of a run of source texts that
starts with a global frame:

* no endless sequence of steps follows;
* the chains of pairs that the next step follows have an end;
* every frame lies inside finitely many others;
* printing ends, whatever is printed;
* a further source text is run in finitely many steps, under any limit on
  nesting, and ends with a value or an ordinary fault. -/
theorem programs_terminate (placeholders : List String) (journal : Option (List Event))
    (c : Configuration)
    (h : (Configuration.global standardPrimitives placeholders journal).Attains c) :
    c.Halts ∧
    (∀ v, c.Follows v → ∃ items last, c.machine.store.spine? v = some (items, last)) ∧
    (∀ r < c.machine.store.frames.size, ∃ refs, c.machine.store.Chain r refs) ∧
    c.machine.store.PrintingEnds ∧
    ∀ depth env source,
      (∃ read, (c.begin depth env source).Leads
        ({ c with stack := [], read }.finish .value (run depth env source c.machine))) ∧
      Settled (run depth env source c.machine) := by
  have hdone : (Configuration.global standardPrimitives placeholders journal).step = none := rfl
  obtain ⟨w₀, hcode⟩ := Configuration.exists_obeys_global standardPrimitives placeholders journal
  obtain ⟨w, -, hobeys⟩ := Configuration.reaches_of_attains (fun _ _ _ => trivial) hcode h
  have hstore : w.store = c.machine.store := hobeys.store
  refine ⟨Configuration.halts_of_attains (Configuration.halts_of_done hdone) h, fun v hv => ?_,
    (rooted_of_attains h).frames, c.machine.store.printingEnds,
    fun depth env source => ⟨Configuration.leads_run c depth env source, ?_⟩⟩
  · obtain ⟨role, hrole, hplays⟩ := Configuration.plays_of_follows hobeys hv
    obtain ⟨items, last, hspine⟩ := CodeWorld.exists_spine hplays hrole
    rw [hstore] at hspine
    exact ⟨items, last, Store.spine?_eq_some_iff.mpr hspine⟩
  · -- Analyse all bodies that are there, and let the trees run.
    have hmirrors : Mirrors w c.machine ⟨c.machine.withoutBodies,
        c.machine.store.closures.map fun k => c.machine.store.analyseBody k.body⟩ :=
      ⟨hstore, rfl, rfl, isDeclared_of_attains h, _, hobeys.read⟩
    cases hrun : run depth env source c.machine with
    | ok v m => exact .inl ⟨v, m, rfl⟩
    | error f m =>
        exact .inr ⟨f, m, rfl, failsOrdinarily_run depth env source hmirrors f m hrun⟩

/-- A program that makes a list circular, and fails with a message that shows
the list. -/
def circularProgram : String :=
  "(set! it '(1 2)) (set-cdr! (cdr it) it) (+ it it)"

/-- After a program that made a list circular, the next one ends. -/
theorem programs_terminate_circular :
    ∃ c : Configuration,
      (Configuration.global standardPrimitives ["it"] none).Attains c ∧
      (c.machine.store.lookup? 0 "it").map c.machine.store.spine? = some none ∧
      c.Halts ∧ Settled (run 20 0 "(it it)" c.machine) := by
  obtain ⟨c, hattains, -, hmachine⟩ := Configuration.exists_attains_run
    (c := Configuration.global standardPrimitives ["it"] none) rfl 20 0 circularProgram
    (by decide +kernel)
  obtain ⟨hhalts, -, -, -, hends⟩ := programs_terminate ["it"] none c hattains
  refine ⟨c, hattains, ?_, hhalts, (hends 20 0 "(it it)").2⟩
  rw [hmachine]
  decide +kernel

end MiniScheme
