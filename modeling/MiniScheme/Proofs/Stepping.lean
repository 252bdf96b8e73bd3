import Mathlib.Logic.Relation
import MiniScheme.Proofs.Actions

/-!
# `MiniScheme.Proofs.Stepping`: evaluation one step at a time

`evaluate` is a recursive function, so it has a start and an end but no
states in between. To speak of those, this file runs the same program with
an explicit stack. A `Configuration` is what is being done (`Control`),
what is left to do afterwards (`Task`), and the machine; `step` does the
next thing. Every value that is held anywhere during a run, the values of
operands evaluated so far among them, is held by a configuration.

A step either rearranges control and stack or performs one of the actions
of the evaluator that evaluate no part: a variable, an assignment, a
quotation, a new closure, a call of a primitive, the entry into a closure.
These are the evaluator's own functions, handed an evaluator that is never
asked (`idle`).

`leads_evaluate`, `leads_apply` and `leads_run` say that the steps are
those of the evaluator: from the configuration that is about to do
something, they lead to the one that holds the result of the recursive
function, with the same machine and the same stack.
-/

set_option autoImplicit false

namespace MiniScheme

/-! ### Configurations -/

/-- What is left to do with a value once it is there. -/
inductive Task where
  /-- The test of a conditional: choose a branch. -/
  | choose (depth : Nat) (env : Ref) (consequent : Value) (alternative : Option Value)
  /-- The new value of a variable: assign it. -/
  | assign (env : Ref) (name : String)
  /-- The procedure of a call: go on with the operands. -/
  | call (depth : Nat) (env : Ref) (expr tail : Value)
  /-- An operand of a call, with the procedure and the values before it, the
  last one first: go on with the rest. -/
  | operand (depth : Nat) (env : Ref) (fn : Value) (done rest : List Value)
  /-- An expression of a body, which is the first one of `body`: go on with
  those behind it. -/
  | body (depth : Nat) (env : Ref) (fuel : Nat) (body : Value)
  /-- An expression of a program: go on with the data that are left. -/
  | program (depth : Nat) (env : Ref) (rest : List Datum) (fault : Option Fault)

/-- What is being done. -/
inductive Control where
  /-- Evaluate an expression. -/
  | evaluate (depth : Nat) (env : Ref) (expr : Value)
  /-- Evaluate the rest of the operands of a call. -/
  | operands (depth : Nat) (env : Ref) (fn : Value) (done rest : List Value)
  /-- Apply a procedure. -/
  | apply (depth : Nat) (fn : Value) (args : List Value)
  /-- Evaluate a body. -/
  | sequence (depth : Nat) (env : Ref) (body : Value)
  /-- Evaluate the rest of a body; `result` is the value before. -/
  | walk (depth : Nat) (env : Ref) (fuel : Nat) (result body : Value)
  /-- Evaluate the rest of a program; `result` is the value before. -/
  | program (depth : Nat) (env : Ref) (result : Value) (data : List Datum) (fault : Option Fault)
  /-- A value is there. -/
  | value (v : Value)
  /-- The run has failed. -/
  | fault (f : Fault)

/-- A moment of a run. -/
structure Configuration where
  control : Control
  stack : List Task
  machine : Machine
  /-- The expressions read from source text so far, the last one first. -/
  read : List Value

namespace Configuration

/-- Nothing is being done, and these expressions have been read. -/
def rest (m : Machine) (read : List Value) : Configuration := ⟨.value .emptySequence, [], m, read⟩

/-- Something else is being done. -/
def goto (c : Configuration) (control : Control) : Configuration := { c with control }

/-- Something more is left to do. -/
def push (c : Configuration) (task : Task) : Configuration :=
  { c with stack := task :: c.stack }

/-- The outcome of an action is there. A fault leaves nothing to do. -/
def finish {α : Type} (c : Configuration) (next : α → Control) :
    EStateM.Result Fault Machine α → Configuration
  | .ok a m => { c with control := next a, machine := m }
  | .error f m => { c with control := .fault f, stack := [], machine := m }

/-- Performs an action that evaluates nothing. -/
def perform {α : Type} (c : Configuration) (action : Eval α) (next : α → Control) : Configuration :=
  c.finish next (action c.machine)

/-! ### Steps -/

/-- A special form is to be evaluated. Forms that evaluate no part of
themselves, and those that are malformed, are done at once. -/
def stepForm (c : Configuration) (depth : Nat) (env : Ref) (form : Form) (tail : Value) :
    Configuration :=
  match form, formOperands form tail c.machine with
  -- A part comes first, and a task remembers the rest of the form.
  | .conditional, .ok [test, consequent] _ =>
    (c.push (.choose depth env consequent none)).goto (.evaluate depth env test)
  | .conditional, .ok [test, consequent, alternative] _ =>
    (c.push (.choose depth env consequent (some alternative))).goto (.evaluate depth env test)
  | .begin, .ok _ _ => c.goto (.sequence depth env tail)
  | .assignment, .ok [.symbol name, e] _ =>
    (c.push (.assign env name)).goto (.evaluate depth env e)
  | form, _ => c.perform (evalForm depth idle env form tail) .value

/-- An expression is to be evaluated. -/
def stepEvaluate (c : Configuration) (depth : Nat) (env : Ref) (expr : Value) : Configuration :=
  match depth with
  | 0 => c.perform (throw .tooDeep) .value
  | depth + 1 =>
    match c.machine.store.cell? expr with
    | some cell =>
      match Form.ofHead? cell.car with
      | some form => c.stepForm depth env form cell.cdr
      | none => (c.push (.call depth env expr cell.cdr)).goto (.evaluate depth env cell.car)
    | none => c.perform (evaluateWith depth idle env expr) .value

/-- A procedure is to be applied. -/
def stepApply (c : Configuration) (depth : Nat) (fn : Value) (args : List Value) : Configuration :=
  match fn with
  | .closure r =>
    match c.machine.store.closures[r]? with
    | some k => c.perform (enterClosure depth fn k args) fun env => .sequence depth env k.body
    | none => c.perform (applyWith depth idle fn args) .value
  | fn => c.perform (applyWith depth idle fn args) .value

/-- A body is to be walked on. -/
def stepWalk (c : Configuration) (depth : Nat) (env : Ref) (fuel : Nat) (result body : Value) :
    Configuration :=
  match fuel with
  | 0 => c.perform (throw .endless) .value
  | fuel + 1 =>
    match c.machine.store.cell? body with
    | none => c.goto (.value result)
    | some cell => (c.push (.body depth env fuel body)).goto (.evaluate depth env cell.car)

/-- A datum of a source text becomes an expression. -/
def load (c : Configuration) (d : Datum) : Configuration :=
  { c with
    machine := { c.machine with store := (c.machine.store.load d).2 }
    read := (c.machine.store.load d).1 :: c.read }

/-- The next datum of a program is loaded and evaluated; at its end comes
the fault of the text, if it has one. -/
def stepProgram (c : Configuration) (depth : Nat) (env : Ref) (result : Value)
    (data : List Datum) (fault : Option Fault) : Configuration :=
  match data, fault with
  | [], none => c.goto (.value result)
  | [], some f => c.perform (throw f) .value
  | d :: rest, fault =>
    ((c.load d).push (.program depth env rest fault)).goto
      (.evaluate depth env (c.machine.store.load d).1)

/-- A value is there for a task. -/
def resume (c : Configuration) (v : Value) : Task → Configuration
  | .choose depth env consequent alternative =>
    if v.isTrue then c.goto (.evaluate depth env consequent)
    else
      match alternative with
      | some e => c.goto (.evaluate depth env e)
      | none => c.goto (.value (.boolean false))
  | .assign env name => c.perform (assign env name v) .value
  | .call depth env expr tail =>
    c.perform (callOperands depth expr tail) fun operands => .operands depth env v [] operands
  | .operand depth env fn done rest => c.goto (.operands depth env fn (v :: done) rest)
  | .body depth env fuel body => c.goto (.walk depth env fuel v (c.machine.store.cdrOf body))
  | .program depth env rest fault => c.goto (.program depth env v rest fault)

/-- The next thing is done; nothing is done when a value or a fault is
there and no task is left. -/
def step (c : Configuration) : Option Configuration :=
  match c.control, c.stack with
  | .evaluate depth env expr, _ => some (c.stepEvaluate depth env expr)
  | .operands depth _ fn done [], _ => some (c.goto (.apply depth fn done.reverse))
  | .operands depth env fn done (e :: rest), _ =>
    some ((c.push (.operand depth env fn done rest)).goto (.evaluate depth env e))
  | .apply depth fn args, _ => some (c.stepApply depth fn args)
  | .sequence depth env body, _ =>
    some (c.goto (.walk depth env (c.machine.store.cells.size + walkLimit) .emptySequence body))
  | .walk depth env fuel result body, _ => some (c.stepWalk depth env fuel result body)
  | .program depth env result data fault, _ => some (c.stepProgram depth env result data fault)
  | .value v, task :: stack => some ({ c with stack }.resume v task)
  | .value _, [] => none
  | .fault _, _ => none

/-- One step leads from the first configuration to the second. -/
def Steps (c c' : Configuration) : Prop := c.step = some c'

/-- Steps lead from the first configuration to the second. -/
abbrev Leads : Configuration → Configuration → Prop := Relation.ReflTransGen Steps

/-! ### The steps are those of the evaluator -/

variable {depth : Nat}

theorem resume_goto (c : Configuration) (control : Control) (v : Value) (task : Task) :
    (c.goto control).resume v task = c.resume v task := by
  cases task with
  | choose depth env consequent alternative => cases alternative <;> rfl
  | assign | call | operand | body | program => rfl

/-- A value is computed for a task, and then the task is done with it. -/
theorem leads_bind {c : Configuration} {task : Task} {control : Control} {x : Eval Value}
    {f : Value → Eval Value}
    (hx : ((c.push task).goto control).Leads ((c.push task).finish .value (x c.machine)))
    (hf : ∀ v m, ({ c with machine := m }.resume v task).Leads
      ({ c with machine := m }.finish .value (f v m))) :
    ((c.push task).goto control).Leads (c.finish .value ((x >>= f) c.machine)) := by
  rw [bind_run]
  cases h : x c.machine with
  | ok v m =>
      rw [h] at hx
      -- The value is there and the task on top of the stack; one step takes it off.
      have htake : ((c.push task).finish .value (.ok v m)).Steps
          ({ c with machine := m }.resume v task) := by
        rw [← resume_goto _ (.value v)]
        rfl
      exact (hx.tail htake).trans (hf v m)
  | error e m =>
      -- A fault clears the stack, so the task is gone with it.
      rw [h] at hx
      exact hx

/-- An action is performed, and then the run goes on with what it gave. -/
theorem leads_perform {α : Type} {c : Configuration} {x : Eval α} {f : α → Eval Value}
    {next : α → Control}
    (hf : ∀ a m, ({ c with machine := m }.goto (next a)).Leads
      ({ c with machine := m }.finish .value (f a m))) :
    (c.perform x next).Leads (c.finish .value ((x >>= f) c.machine)) := by
  rw [bind_run]
  unfold perform
  cases x c.machine with
  | ok a m => exact hf a m
  | error e m => exact .refl

/-- From every configuration, the steps evaluate expressions as the
evaluator does. -/
def Simulates (depth : Nat) : Prop :=
  ∀ (c : Configuration) (env : Ref) (expr : Value),
    (c.goto (.evaluate depth env expr)).Leads (c.finish .value (evaluate depth env expr c.machine))

theorem leads_walk (h : Simulates depth) (env : Ref) (fuel : Nat) :
    ∀ (c : Configuration) (result body : Value),
      (c.goto (.walk depth env fuel result body)).Leads
        (c.finish .value (evalBody (evaluate depth) env fuel result body c.machine)) := by
  -- On the counted steps. Each expression leaves another machine and another
  -- result, so the statement is about all of them.
  induction fuel with
  | zero => intro c result body; exact .single rfl
  | succ fuel ih =>
      intro c result body
      have hstep : (c.goto (.walk depth env (fuel + 1) result body)).Steps
          (c.stepWalk depth env (fuel + 1) result body) := rfl
      rw [evalBody, inquire_bind_run]
      unfold stepWalk at hstep
      cases hcell : c.machine.store.cell? body with
      | none =>
          rw [hcell] at hstep
          exact .single hstep
      | some cell =>
          rw [hcell] at hstep
          refine .head hstep (leads_bind (h _ env cell.car) fun v m => ?_)
          exact ih _ v _

theorem leads_sequence (h : Simulates depth) (c : Configuration) (env : Ref) (body : Value) :
    (c.goto (.sequence depth env body)).Leads
      (c.finish .value (evalSequence (evaluate depth) env body c.machine)) := by
  rw [evalSequence, inquire_bind_run]
  have hstep : (c.goto (.sequence depth env body)).Steps
      (c.goto (.walk depth env (c.machine.store.cells.size + walkLimit) .emptySequence body)) := rfl
  exact .head hstep (leads_walk h env _ c _ body)

theorem applyWith_closure (ev : Evaluator) (r : Ref) (args : List Value) (m : Machine) :
    applyWith depth ev (.closure r) args m = match m.store.closures[r]? with
      | some k => applyClosure depth ev (.closure r) k args m
      | none => failShowing depth .notCallable (.closure r) m := by
  show ((inquire fun s => s.closures[r]?) >>= _) m = _
  rw [inquire_bind_run]
  cases m.store.closures[r]? <;> rfl

/-- What is no closure is applied without an evaluator. -/
theorem applyWith_idle {ev : Evaluator} {fn : Value} {args : List Value} {m : Machine}
    (hfn : ∀ r k, fn = .closure r → m.store.closures[r]? ≠ some k) :
    applyWith depth idle fn args m = applyWith depth ev fn args m := by
  cases fn with
  | closure r =>
      rw [applyWith_closure, applyWith_closure]
      cases hk : m.store.closures[r]? with
      | none => rfl
      | some k => exact absurd hk (hfn r k rfl)
  | _ => rfl

theorem leads_applyWith (h : Simulates depth) (c : Configuration) (fn : Value)
    (args : List Value) :
    (c.goto (.apply depth fn args)).Leads
      (c.finish .value (applyWith depth (evaluate depth) fn args c.machine)) := by
  have hstep : (c.goto (.apply depth fn args)).Steps (c.stepApply depth fn args) := by
    cases fn <;> rfl
  refine .head hstep ?_
  -- Only a closure that is in the store has a body to evaluate.
  by_cases hfn : ∃ r k, fn = .closure r ∧ c.machine.store.closures[r]? = some k
  · obtain ⟨r, k, rfl, hk⟩ := hfn
    have happly : applyWith depth (evaluate depth) (.closure r) args c.machine
        = (enterClosure depth (.closure r) k args >>= fun env =>
            evalSequence (evaluate depth) env k.body) c.machine := by
      rw [applyWith_closure, hk]
      exact congrFun (applyClosure_eq depth _ _ k args) c.machine
    unfold stepApply
    simp only [hk, happly]
    exact leads_perform fun env m => leads_sequence h _ env k.body
  · have hidle : ∀ r k, fn = .closure r → c.machine.store.closures[r]? ≠ some k :=
      fun r k hr hk => hfn ⟨r, k, hr, hk⟩
    have hperform : c.stepApply depth fn args
        = c.perform (applyWith depth idle fn args) .value := by
      unfold stepApply
      cases fn with
      | closure r =>
          cases hk : c.machine.store.closures[r]? with
          | none => simp only [hk]
          | some k => exact absurd hk (hidle r k rfl)
      | _ => rfl
    rw [hperform, ← applyWith_idle hidle]
    exact .refl

theorem leads_operands (h : Simulates depth) (env : Ref) (fn : Value) (rest : List Value) :
    ∀ (c : Configuration) (done : List Value),
      (c.goto (.operands depth env fn done rest)).Leads
        (c.finish .value ((evalOperands (evaluate depth) env done rest >>= fun args =>
          applyWith depth (evaluate depth) fn args) c.machine)) := by
  induction rest with
  | nil =>
      intro c done
      exact .head rfl (leads_applyWith h c fn done.reverse)
  | cons e rest ih =>
      intro c done
      -- The call behind the operands belongs to what follows the first of them.
      rw [evalOperands, bind_assoc]
      refine .head rfl (leads_bind (h _ env e) fun v m => ?_)
      exact ih _ (v :: done)

/-- A form is done at once when it needs no evaluator. -/
theorem leads_form_idle {c : Configuration} {env : Ref} {form : Form} {tail : Value}
    {ev : Evaluator}
    (hstep : c.stepForm depth env form tail = c.perform (evalForm depth idle env form tail) .value)
    (hidle : evalForm depth idle env form tail c.machine
      = evalForm depth ev env form tail c.machine) :
    (c.stepForm depth env form tail).Leads
      (c.finish .value (evalForm depth ev env form tail c.machine)) := by
  rw [hstep, perform, hidle]

theorem leads_form (h : Simulates depth) (c : Configuration) (env : Ref) (form : Form)
    (tail : Value) :
    (c.stepForm depth env form tail).Leads
      (c.finish .value (evalForm depth (evaluate depth) env form tail c.machine)) := by
  cases hoperands : formOperands form tail c.machine with
  | error f m =>
      -- Every form asks for its operands first, so all evaluators fail alike.
      have hfail (ev : Evaluator) : evalForm depth ev env form tail c.machine = .error f m :=
        bind_run_error hoperands
      refine leads_form_idle ?_ ((hfail _).trans (hfail _).symm)
      cases form <;> simp only [stepForm, hoperands]
  | ok operands m =>
      obtain ⟨-, rfl⟩ := formOperands_eq_ok hoperands
      have hrun (ev : Evaluator) : evalForm depth ev env form tail c.machine = _ :=
        bind_run_ok hoperands
      cases form with
      | quote => exact leads_form_idle (by simp only [stepForm]) (by simp only [hrun])
      | conditional =>
          -- With two or three operands the test comes first; else it is a fault.
          rcases operands with - | ⟨test, - | ⟨consequent, - | ⟨alternative, - | ⟨extra, more⟩⟩⟩⟩
          · exact leads_form_idle (by simp only [stepForm, hoperands]) (by simp only [hrun])
          · exact leads_form_idle (by simp only [stepForm, hoperands]) (by simp only [hrun])
          · rw [hrun]
            simp only [stepForm, hoperands]
            refine leads_bind (h _ env test) fun v m => ?_
            dsimp only [resume]
            split
            · exact h _ env consequent
            · exact .refl
          · rw [hrun]
            simp only [stepForm, hoperands]
            refine leads_bind (h _ env test) fun v m => ?_
            dsimp only [resume]
            split
            · exact h _ env consequent
            · exact h _ env alternative
          · exact leads_form_idle (by simp only [stepForm, hoperands]) (by simp only [hrun])
      | begin =>
          rw [hrun]
          simp only [stepForm, hoperands]
          exact leads_sequence h c env tail
      | assignment =>
          -- Two operands, of which the first is a symbol; else it is a fault.
          rcases operands with - | ⟨target, - | ⟨e, - | ⟨extra, more⟩⟩⟩
          · exact leads_form_idle (by simp only [stepForm, hoperands]) (by simp only [hrun])
          · exact leads_form_idle (by simp only [stepForm, hoperands]) (by simp only [hrun])
          · cases target with
            | symbol name =>
                rw [hrun]
                simp only [stepForm, hoperands]
                refine leads_bind (h _ env e) fun v m => ?_
                exact .refl
            | _ => exact leads_form_idle (by simp only [stepForm, hoperands]) (by simp only [hrun])
          · exact leads_form_idle (by simp only [stepForm, hoperands]) (by simp only [hrun])
      | lambda => exact leads_form_idle (by simp only [stepForm]) (by simp only [hrun])

/-- What is no pair is evaluated without an evaluator. -/
theorem evaluateWith_idle {ev : Evaluator} {env : Ref} {expr : Value} {m : Machine}
    (hcell : m.store.cell? expr = none) :
    evaluateWith depth idle env expr m = evaluateWith depth ev env expr m := by
  cases expr with
  | pair r =>
      have hrefuse (ev : Evaluator) :
          evaluateWith depth ev env (.pair r) m = refuse depth (.pair r) m := by
        show ((inquire fun s => s.cell? (.pair r)) >>= _) m = _
        rw [inquire_bind_run, hcell]
      rw [hrefuse, hrefuse]
  | _ => rfl

theorem evalCall_eq (ev : Evaluator) (env : Ref) (expr head tail : Value) :
    evalCall depth ev env expr head tail = ev env head >>= fun fn =>
      callOperands depth expr tail >>= fun operands =>
        evalOperands ev env [] operands >>= fun args => applyWith depth ev fn args := by
  unfold evalCall callOperands
  -- The two sides differ in where the check of the list of operands stands.
  refine congrArg (ev env head >>= ·) (funext fun fn => ?_)
  rw [bind_assoc]
  refine congrArg (spine tail >>= ·) (funext fun split => ?_)
  obtain ⟨operands, last⟩ := split
  by_cases hlast : last = .nil
  · simp only [hlast, ne_eq, not_true_eq_false, if_false, pure_bind]
  · simp only [hlast, ne_eq, not_false_eq_true, if_true]
    unfold failShowing
    rw [bind_assoc]
    rfl

/-- Steps evaluate expressions as the evaluator does, with any stack. -/
theorem leads_evaluate (depth : Nat) : Simulates depth := by
  -- On the depth: parts and bodies are evaluated one level further in.
  induction depth with
  | zero => intro c env expr; exact .single rfl
  | succ depth ih =>
      intro c env expr
      have hstep : (c.goto (.evaluate (depth + 1) env expr)).Steps
          (c.stepEvaluate (depth + 1) env expr) := rfl
      refine .head hstep ?_
      show Leads _ (c.finish .value (evaluateWith depth (evaluate depth) env expr c.machine))
      unfold stepEvaluate
      cases hcell : c.machine.store.cell? expr with
      | none =>
          rw [← evaluateWith_idle hcell]
          exact .refl
      | some cell =>
          rw [evaluateWith_pair hcell]
          dsimp only
          cases Form.ofHead? cell.car with
          | some form => exact leads_form ih c env form cell.cdr
          | none =>
              -- The procedure, then its operands, then the call.
              simp only [evalCall_eq]
              refine leads_bind (ih _ env cell.car) fun fn m => ?_
              exact leads_perform fun operands m => leads_operands ih env fn operands _ []

/-- Steps apply procedures as the evaluator does, with any stack. -/
theorem leads_apply (c : Configuration) (depth : Nat) (fn : Value) (args : List Value) :
    (c.goto (.apply depth fn args)).Leads (c.finish .value (apply depth fn args c.machine)) :=
  leads_applyWith (leads_evaluate depth) c fn args

/-! ### Programs -/

/-- A source text is to be evaluated, and nothing else is left to do. -/
def begin (c : Configuration) (depth : Nat) (env : Ref) (source : String) : Configuration :=
  { c with
    control := .program depth env .emptySequence (MiniScheme.read depth source).1
      (MiniScheme.read depth source).2
    stack := [] }

theorem leads_program (env : Ref) (fault : Option Fault) (data : List Datum) :
    ∀ (c : Configuration) (result : Value), ∃ read,
      (c.goto (.program depth env result data fault)).Leads
        ({ c with read }.finish .value ((evalData depth env result data >>= fun v =>
          match fault with | none => pure v | some f => throw f) c.machine)) := by
  induction data with
  | nil =>
      intro c result
      refine ⟨c.read, .single ?_⟩
      cases fault <;> rfl
  | cons d rest ih =>
      intro c result
      have hload : (c.goto (.program depth env result (d :: rest) fault)).Steps
          (((c.load d).push (.program depth env rest fault)).goto
            (.evaluate depth env (c.machine.store.load d).1)) := by
        cases fault <;> rfl
      have heval : (((c.load d).push (.program depth env rest fault)).goto
            (.evaluate depth env (c.machine.store.load d).1)).Leads
          (((c.load d).push (.program depth env rest fault)).finish .value
            (evaluate depth env (c.machine.store.load d).1 (c.load d).machine)) :=
        leads_evaluate depth _ env _
      rw [evalData, bind_assoc,
        bind_run_ok (show MiniScheme.load d c.machine
          = .ok (c.machine.store.load d).1 (c.load d).machine from rfl),
        bind_assoc, bind_run]
      cases h : evaluate depth env (c.machine.store.load d).1 (c.load d).machine with
      | ok v m =>
          rw [h] at heval
          obtain ⟨read, hrest⟩ := ih { c.load d with machine := m } v
          refine ⟨read, .head hload (heval.trans (.head rfl ?_))⟩
          -- The outcome replaces control and machine, so only the expressions read count.
          have hsame (x : EStateM.Result Fault Machine Value) :
              { c.load d with machine := m, read }.finish .value x
                = { c with read }.finish .value x := by
            cases x <;> rfl
          exact hsame _ ▸ hrest
      | error f m =>
          rw [h] at heval
          exact ⟨(c.load d).read, .head hload heval⟩

/-- Steps evaluate a source text as `run` does. -/
theorem leads_run (c : Configuration) (depth : Nat) (env : Ref) (source : String) :
    ∃ read, (c.begin depth env source).Leads
      ({ c with stack := [], read }.finish .value (run depth env source c.machine)) :=
  leads_program env (MiniScheme.read depth source).2 (MiniScheme.read depth source).1
    { c with stack := [] } .emptySequence

end Configuration

end MiniScheme
