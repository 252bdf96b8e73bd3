import MiniScheme.Interpreter
import MiniScheme.Proofs.Spine

/-!
# `MiniScheme.Proofs.Actions`: what single actions do to the store

The evaluator is made of a few actions that evaluate no part of an
expression: they look a variable up, assign one, take the elements of a
list, run an operation, bind parameters, make a closure. This file says
once what each of them can do, to the store and in its result, whether it
succeeds or fails. All statements about runs go back to these.

An action either leaves the store as it is (`Keeps`), or does to it one of
the things that are listed for it: operations in `Operation.Effect`, the
entry into a closure in `enterClosure_run`.
-/

set_option autoImplicit false

namespace MiniScheme

/-! ### The actions -/

/-- An evaluator that is never asked. -/
def idle : Evaluator := fun _ _ => throw .endless

/-- The operands of a call, which have to be a proper list. -/
def callOperands (depth : Nat) (expr tail : Value) : Eval (List Value) := do
  let (operands, last) ← spine tail
  if last ≠ .nil then failShowing depth .improperCall expr else return operands

/-- What a call of a closure does before it runs the body. -/
def enterClosure (depth : Nat) (fn : Value) (k : Closure) (args : List Value) : Eval Ref := do
  let env ← extend depth k.frame k.formals args
  note fun s => do
    let shown ← s.display depth fn
    .ok (.closureEntered shown env)
  return env

theorem applyClosure_eq (depth : Nat) (ev : Evaluator) (fn : Value) (k : Closure)
    (args : List Value) :
    applyClosure depth ev fn k args
      = enterClosure depth fn k args >>= fun env => evalSequence ev env k.body := by
  simp only [applyClosure, enterClosure, bind_assoc, pure_bind]

/-! ### Running actions -/

/-- The machine that an action leaves. -/
def outcome {F α : Type} : EStateM.Result Fault (Machine F) α → Machine F
  | .ok _ m => m
  | .error _ m => m

section Runs

variable {F α β : Type}

theorem bind_run (x : EvalOn F α) (f : α → EvalOn F β) (m : Machine F) :
    (x >>= f) m = match x m with
      | .ok a m => f a m
      | .error e m => .error e m := by
  show EStateM.bind x f m = _
  unfold EStateM.bind
  cases x m <;> rfl

theorem bind_run_ok {x : EvalOn F α} {f : α → EvalOn F β} {m m' : Machine F} {a : α}
    (h : x m = .ok a m') : (x >>= f) m = f a m' := by
  rw [bind_run, h]

theorem bind_run_error {x : EvalOn F α} {f : α → EvalOn F β} {m m' : Machine F} {e : Fault}
    (h : x m = .error e m') : (x >>= f) m = .error e m' := by
  rw [bind_run, h]

theorem inquire_bind_run (f : Store F → α) (g : α → EvalOn F β) (m : Machine F) :
    (inquire f >>= g) m = g (f m.store) m := rfl

/-- What led to a value: the first action gave one, and the second made
this of it. -/
theorem bind_eq_ok {x : EvalOn F α} {f : α → EvalOn F β} {m m' : Machine F} {b : β}
    (h : (x >>= f) m = .ok b m') : ∃ a k, x m = .ok a k ∧ f a k = .ok b m' := by
  rw [bind_run] at h
  cases hx : x m with
  | ok a k => rw [hx] at h; exact ⟨a, k, rfl, h⟩
  | error e k => rw [hx] at h; cases h

/-- What led to a fault: the first action failed, or the second did. -/
theorem bind_eq_error {x : EvalOn F α} {f : α → EvalOn F β} {m m' : Machine F} {e : Fault}
    (h : (x >>= f) m = .error e m') :
    x m = .error e m' ∨ ∃ a k, x m = .ok a k ∧ f a k = .error e m' := by
  rw [bind_run] at h
  cases hx : x m with
  | ok a k => rw [hx] at h; exact .inr ⟨a, k, rfl, h⟩
  | error e' k => rw [hx] at h; cases h; exact .inl rfl

end Runs

/-! ### Actions that keep the store -/

/-- The action leaves the store as it is, whether it succeeds or fails. -/
def Keeps {α : Type} (x : Eval α) : Prop := ∀ m, (outcome (x m)).store = m.store

namespace Keeps

variable {α β : Type}

theorem of_ok {x : Eval α} (h : Keeps x) {m m' : Machine} {a : α} (hx : x m = .ok a m') :
    m'.store = m.store := by
  have := h m
  rwa [hx] at this

theorem of_error {x : Eval α} (h : Keeps x) {m m' : Machine} {e : Fault} (hx : x m = .error e m') :
    m'.store = m.store := by
  have := h m
  rwa [hx] at this

theorem pure (a : α) : Keeps (pure a : Eval α) := fun _ => rfl

theorem throw (e : Fault) : Keeps (throw e : Eval α) := fun _ => rfl

theorem inquire (f : Store → α) : Keeps (inquire f) := fun _ => rfl

theorem bind {x : Eval α} {f : α → Eval β} (hx : Keeps x) (hf : ∀ a, Keeps (f a)) :
    Keeps (x >>= f) := by
  intro m
  rw [bind_run]
  cases h : x m with
  | ok a k => exact (hf a k).trans (hx.of_ok h)
  | error e k => exact hx.of_error h

/-- An action that keeps the store can be left out where only the store
counts. -/
theorem outcome_bind {x : Eval α} {f : α → Eval β} (hf : ∀ a, Keeps (f a)) (m : Machine) :
    (outcome ((x >>= f) m)).store = (outcome (x m)).store := by
  rw [bind_run]
  cases x m with
  | ok a k => exact hf a k
  | error e k => rfl

theorem examine (f : Store → Except Fault α) : Keeps (examine f) := by
  intro m
  unfold MiniScheme.examine
  cases f m.store <;> rfl

theorem note (event : Store → Except Fault Event) : Keeps (note event) := by
  intro m
  unfold MiniScheme.note
  cases m.journal with
  | none => rfl
  | some events =>
      cases event m.store with
      | ok e => rfl
      | error f => cases f <;> rfl

theorem failShowing (depth : Nat) (fault : String → Fault) (v : Value) :
    Keeps (failShowing depth fault v : Eval α) :=
  (examine _).bind fun _ => throw _

theorem refuse (depth : Nat) (expr : Value) : Keeps (refuse depth expr) :=
  (examine _).bind fun _ => throw _

end Keeps

theorem failShowing_ne_ok {α : Type} {depth : Nat} {fault : String → Fault} {v : Value}
    {m m' : Machine} {a : α} : failShowing depth fault v m ≠ .ok a m' := by
  intro h
  obtain ⟨shown, k, -, h⟩ := bind_eq_ok h
  cases h

/-- The fault that names the text of a value. Where the value has no text,
making one fails first. -/
def Store.complaint {F : Type} (s : Store F) (depth : Nat) (fault : String → Fault) (v : Value) : Fault :=
  match s.display depth v with
  | .ok shown => fault shown
  | .error limit => limit

theorem failShowing_run {F α : Type} (depth : Nat) (fault : String → Fault) (v : Value)
    (m : Machine F) :
    (failShowing depth fault v : EvalOn F α) m = .error (m.store.complaint depth fault v) m := by
  rw [failShowing, bind_run, examine, Store.complaint]
  cases m.store.display depth v <;> rfl

theorem refuse_ne_ok {depth : Nat} {expr v : Value} {m m' : Machine} :
    refuse depth expr m ≠ .ok v m' := by
  intro h
  obtain ⟨shown, k, -, h⟩ := bind_eq_ok h
  cases h

/-! ### Lists and variables -/

section Lists

variable {F : Type}

theorem examine_run_ok {α : Type} {f : Store F → Except Fault α} {m : Machine F} {a : α}
    (h : f m.store = .ok a) : examine f m = .ok a m := by
  rw [examine, h]

theorem examine_run_error {α : Type} {f : Store F → Except Fault α} {m : Machine F} {e : Fault}
    (h : f m.store = .error e) : examine f m = .error e m := by
  rw [examine, h]

theorem examine_eq_ok {α : Type} {f : Store F → Except Fault α} {m m' : Machine F} {a : α}
    (h : examine f m = .ok a m') : f m.store = .ok a ∧ m' = m := by
  unfold examine at h
  split at h
  · rename_i heq
    cases h
    exact ⟨heq, rfl⟩
  · cases h

theorem spine_eq_ok {v : Value} {m m' : Machine F} {split : List Value × Value}
    (h : spine v m = .ok split m') : m.store.spine? v = some split ∧ m' = m := by
  obtain ⟨h, rfl⟩ := examine_eq_ok h
  split at h
  · rename_i heq
    cases h
    exact ⟨heq, rfl⟩
  · cases h

theorem spine_run {v : Value} {m : Machine F} {split : List Value × Value}
    (h : m.store.spine? v = some split) : spine v m = .ok split m := by
  rw [spine, examine, h]

/-- The operands of a form are taken if they are a proper list. -/
theorem formOperands_run (form : Form) {tail last : Value} {items : List Value} {m : Machine F}
    (h : m.store.spine? tail = some (items, last)) :
    formOperands form tail m
      = if last = .nil then .ok items m else .error (.improperForm form.name) m := by
  rw [formOperands, bind_run_ok (spine_run h)]
  dsimp only
  split <;> rfl

/-- The operands of a form that are a proper list. -/
theorem formOperands_proper (form : Form) {tail : Value} {items : List Value} {m : Machine F}
    (h : m.store.Spine tail items .nil) : formOperands form tail m = .ok items m :=
  (formOperands_run form (Store.spine?_eq_some_iff.mpr h)).trans (if_pos rfl)

theorem formOperands_eq_ok {form : Form} {tail : Value} {m m' : Machine F} {operands : List Value}
    (h : formOperands form tail m = .ok operands m') :
    m.store.spine? tail = some (operands, .nil) ∧ m' = m := by
  obtain ⟨⟨items, last⟩, k, hspine, hrest⟩ := bind_eq_ok h
  obtain ⟨hsplit, rfl⟩ := spine_eq_ok hspine
  dsimp only at hrest
  split at hrest
  · rename_i hlast
    cases hrest
    exact ⟨hlast ▸ hsplit, rfl⟩
  · cases hrest

/-- A pair is evaluated as the form that its head names, or else as a call. -/
theorem evaluateWith_pair [HostFunctions F] {depth : Nat} {ev : Evaluator F} {env : Ref} {expr : Value} {cell : Cell}
    {m : Machine F} (hcell : m.store.cell? expr = some cell) :
    evaluateWith depth ev env expr m = match Form.ofHead? cell.car with
      | some form => evalForm depth ev env form cell.cdr m
      | none => evalCall depth ev env expr cell.car cell.cdr m := by
  cases expr with
  | pair r =>
      show ((inquire fun s => s.cell? (.pair r)) >>= _) m = _
      rw [inquire_bind_run, hcell]
      dsimp only
      cases Form.ofHead? cell.car <;> rfl
  | _ => cases hcell

theorem evaluateWith_form [HostFunctions F] (depth : Nat) (ev : Evaluator F) (env : Ref) {m : Machine F} {expr : Value}
    {form : Form} {tail : Value} (h : m.store.cell? expr = some ⟨.symbol form.name, tail⟩) :
    evaluateWith depth ev env expr m = evalForm depth ev env form tail m := by
  have hform : Form.ofHead? (.symbol form.name) = some form := by cases form <;> decide
  rw [evaluateWith_pair h, hform]

end Lists

theorem keeps_formOperands (form : Form) (tail : Value) : Keeps (formOperands form tail) := by
  refine (Keeps.examine _).bind fun split => ?_
  dsimp only
  split
  · exact .pure _
  · exact .throw _

theorem Frame.mem_of_value? {f : Frame} {name : String} {v : Value} (h : f.value? name = some v) :
    (name, v) ∈ f.bindings := by
  obtain ⟨front, back, hbindings, -⟩ := List.lookup_eq_some_iff.mp h
  simp [hbindings]

/-- The value of a name stands in a frame of the environment. -/
theorem Store.lookup?_eq_some {F : Type} {s : Store F} {env : Ref} {name : String} {v : Value}
    (h : s.lookup? env name = some v) :
    ∃ r f, r ∈ s.chain env ∧ s.frames[r]? = some f ∧ (name, v) ∈ f.bindings := by
  obtain ⟨r, hlocate, hvalue⟩ := Option.bind_eq_some_iff.mp h
  obtain ⟨f, hf, hlookup⟩ := Option.bind_eq_some_iff.mp hvalue
  exact ⟨r, f, List.mem_of_find?_eq_some hlocate, hf, Frame.mem_of_value? hlookup⟩

theorem lookup_eq_ok {env : Ref} {name : String} {v : Value} {m m' : Machine}
    (h : lookup env name m = .ok v m') : m.store.lookup? env name = some v ∧ m' = m := by
  obtain ⟨h, rfl⟩ := examine_eq_ok h
  split at h
  · rename_i heq
    cases h
    exact ⟨heq, rfl⟩
  · cases h

theorem keeps_lookup (env : Ref) (name : String) : Keeps (lookup env name) := Keeps.examine _

/-- An assignment replaces the value of the innermost binding, or fails and
changes nothing. -/
theorem assign_run (env : Ref) (name : String) (v : Value) (m : Machine) :
    (∃ r, m.store.locate? env name = some r ∧
      ∃ m', assign env name v m = .ok v m' ∧ m'.store = m.store.bind r name v) ∨
    (m.store.locate? env name = none ∧ assign env name v m = .error (.unbound name) m) := by
  unfold assign
  rw [inquire_bind_run]
  cases h : m.store.locate? env name with
  | none => exact .inr ⟨rfl, rfl⟩
  | some r =>
      refine .inl ⟨r, rfl, ?_⟩
      show ∃ m', (note _ >>= fun _ => pure v) ⟨m.store.bind r name v, m.journal⟩ = _ ∧ _
      rw [bind_run]
      -- The event of an assignment always has a text.
      cases hj : m.journal with
      | none => exact ⟨_, rfl, rfl⟩
      | some events => exact ⟨_, rfl, rfl⟩

theorem callOperands_eq_ok {depth : Nat} {expr tail : Value} {m m' : Machine}
    {operands : List Value} (h : callOperands depth expr tail m = .ok operands m') :
    m.store.spine? tail = some (operands, .nil) ∧ m' = m := by
  obtain ⟨⟨items, last⟩, k, hspine, hrest⟩ := bind_eq_ok h
  obtain ⟨hsplit, rfl⟩ := spine_eq_ok hspine
  dsimp only at hrest
  split at hrest
  · exact absurd hrest failShowing_ne_ok
  · rename_i hlast
    cases hrest
    exact ⟨Classical.not_not.mp hlast ▸ hsplit, rfl⟩

theorem keeps_callOperands (depth : Nat) (expr tail : Value) :
    Keeps (callOperands depth expr tail) := by
  refine (Keeps.examine _).bind fun split => ?_
  dsimp only
  split
  · exact .failShowing _ _ _
  · exact .pure _

/-! ### Expressions without parts -/

/-- What is no pair is a variable, or a constant that evaluates to itself,
or nothing at all. -/
theorem evaluateWith_eq_ok {depth : Nat} {ev : Evaluator} {env : Ref} {expr v : Value}
    {m m' : Machine} (hcell : m.store.cell? expr = none)
    (h : evaluateWith depth ev env expr m = .ok v m') :
    m' = m ∧ ((v = expr ∧ ∀ r, v ≠ .pair r) ∨ ∃ name, m.store.lookup? env name = some v) := by
  cases expr with
  | symbol name =>
      obtain ⟨hlookup, rfl⟩ := lookup_eq_ok h
      exact ⟨rfl, .inr ⟨name, hlookup⟩⟩
  | number | text | boolean | vector =>
      cases h
      exact ⟨rfl, .inl ⟨rfl, by simp⟩⟩
  | pair r =>
      -- A pair that is not in the store is refused like other values.
      obtain ⟨found, k, hfound, hrest⟩ := bind_eq_ok h
      cases hfound
      dsimp only at hrest
      rw [hcell] at hrest
      exact absurd hrest refuse_ne_ok
  | nil | emptySequence | closure | primitive | foreign => exact absurd h refuse_ne_ok

theorem evaluateWith_eq_error {depth : Nat} {ev : Evaluator} {env : Ref} {expr : Value}
    {m m' : Machine} {f : Fault} (hcell : m.store.cell? expr = none)
    (h : evaluateWith depth ev env expr m = .error f m') : m'.store = m.store := by
  cases expr with
  | symbol name => exact (keeps_lookup env name).of_error h
  | number | text | boolean | vector => cases h
  | pair r =>
      rcases bind_eq_error h with hfound | ⟨found, k, hfound, hrest⟩
      · cases hfound
      · cases hfound
        dsimp only at hrest
        rw [hcell] at hrest
        exact (Keeps.refuse _ _).of_error hrest
  | nil | emptySequence | closure | primitive | foreign => exact (Keeps.refuse _ _).of_error h

/-! ### Closures -/

/-- A closure is made, whether or not an event of it can be noted. -/
theorem makeClosure_run (depth : Nat) (env : Ref) (formals body : Value) (m : Machine) :
    (outcome (makeClosure depth env formals body m)).store
      = (m.store.newClosure ⟨formals, body, env⟩).2 ∧
    ∀ v m', makeClosure depth env formals body m = .ok v m' →
      v = (m.store.newClosure ⟨formals, body, env⟩).1 := by
  have hkeeps : Keeps (note _ >>= fun _ => pure (m.store.newClosure ⟨formals, body, env⟩).1) :=
    (Keeps.note fun s => do
      let shown ← s.display depth formals
      .ok (.closureMade shown env)).bind fun _ => .pure _
  -- The closure is made first; what comes after it keeps the store.
  refine ⟨hkeeps ⟨(m.store.newClosure ⟨formals, body, env⟩).2, m.journal⟩, fun v m' h => ?_⟩
  obtain ⟨w, k, hnew, hrest⟩ := bind_eq_ok h
  cases hnew
  obtain ⟨-, k', -, hpure⟩ := bind_eq_ok hrest
  cases hpure
  rfl

/-- A body that asks an idle evaluator for nothing is empty. -/
theorem evalBody_idle (env : Ref) (fuel : Nat) (result body : Value) (m : Machine) :
    evalBody idle env fuel result body m = .ok result m ∨
    ∃ f, evalBody idle env fuel result body m = .error f m := by
  cases fuel with
  | zero => exact .inr ⟨_, rfl⟩
  | succ fuel =>
      rw [evalBody, inquire_bind_run]
      cases m.store.cell? body with
      | none => exact .inl rfl
      | some cell => exact .inr ⟨_, rfl⟩

theorem evalSequence_idle (env : Ref) (body : Value) (m : Machine) :
    evalSequence idle env body m = .ok .emptySequence m ∨
    ∃ f, evalSequence idle env body m = .error f m := by
  rw [evalSequence, inquire_bind_run]
  exact evalBody_idle _ _ _ _ _

/-- The closure that a `lambda` form makes, given its operands as a list of
pairs. -/
def Store.closureOf (s : Store) (env : Ref) (tail : Value) : Option Closure :=
  (s.cell? tail).map fun c => ⟨c.car, c.cdr, env⟩

/-- A `lambda` form gives the closure of its parameters and its body. -/
theorem evalForm_lambda_eq_ok {depth : Nat} {ev : Evaluator} {env : Ref} {tail v : Value}
    {m m' : Machine} (h : evalForm depth ev env .lambda tail m = .ok v m') :
    ∃ k operands, m.store.closureOf env tail = some k ∧
      m.store.spine? tail = some (operands, .nil) ∧ v = (m.store.newClosure k).1 ∧
      m'.store = (m.store.newClosure k).2 := by
  obtain ⟨operands, k, hoperands, hrest⟩ := bind_eq_ok h
  obtain ⟨hspine, rfl⟩ := formOperands_eq_ok hoperands
  obtain ⟨found, k', hfound, hmake⟩ := bind_eq_ok hrest
  cases hfound
  dsimp only at hmake
  cases hcell : k.store.cell? tail with
  | none =>
      rw [hcell] at hmake
      cases hmake
  | some c =>
      rw [hcell] at hmake
      obtain ⟨houtcome, hvalue⟩ := makeClosure_run depth env c.car c.cdr k
      refine ⟨⟨c.car, c.cdr, env⟩, operands, by simp [Store.closureOf, hcell], hspine,
        hvalue v m' hmake, ?_⟩
      rwa [show makeClosure depth env c.car c.cdr k = .ok v m' from hmake] at houtcome

/-- Where a `lambda` form fails, it has changed nothing, or it has made a closure
of which no event could be noted. -/
theorem evalForm_lambda_eq_error {depth : Nat} {ev : Evaluator} {env : Ref} {tail : Value}
    {m m' : Machine} {f : Fault} (h : evalForm depth ev env .lambda tail m = .error f m') :
    m'.store = m.store ∨
    ∃ k operands, m.store.closureOf env tail = some k ∧
      m.store.spine? tail = some (operands, .nil) ∧ m'.store = (m.store.newClosure k).2 := by
  rcases bind_eq_error h with hoperands | ⟨operands, k, hoperands, hrest⟩
  · exact .inl ((keeps_formOperands .lambda tail).of_error hoperands)
  obtain ⟨hspine, rfl⟩ := formOperands_eq_ok hoperands
  rcases bind_eq_error hrest with hfound | ⟨found, k', hfound, hmake⟩
  · cases hfound
  cases hfound
  dsimp only at hmake
  cases hcell : k.store.cell? tail with
  | none =>
      rw [hcell] at hmake
      cases hmake
      exact .inl rfl
  | some c =>
      rw [hcell] at hmake
      refine .inr ⟨⟨c.car, c.cdr, env⟩, operands, by simp [Store.closureOf, hcell], hspine, ?_⟩
      have houtcome := (makeClosure_run depth env c.car c.cdr k).1
      rwa [show makeClosure depth env c.car c.cdr k = .error f m' from hmake] at houtcome

/-- A form that evaluates no part of itself is a quotation, which gives its
datum, or makes a closure, or is an empty body. -/
theorem evalForm_idle_eq_ok {depth : Nat} {env : Ref} {form : Form} {tail v : Value}
    {m m' : Machine} (h : evalForm depth idle env form tail m = .ok v m') :
    (form = .quote ∧ m.store.spine? tail = some ([v], .nil) ∧ m' = m) ∨
    (form = .lambda ∧ ∃ k operands, m.store.closureOf env tail = some k ∧
      m.store.spine? tail = some (operands, .nil) ∧ v = (m.store.newClosure k).1 ∧
      m'.store = (m.store.newClosure k).2) ∨
    (v = .emptySequence ∧ m' = m) := by
  obtain ⟨operands, k, hoperands, hrest⟩ := bind_eq_ok h
  obtain ⟨hspine, rfl⟩ := formOperands_eq_ok hoperands
  cases form with
  | quote =>
      dsimp only at hrest
      split at hrest
      · cases hrest
        exact .inl ⟨rfl, hspine, rfl⟩
      · cases hrest
  | conditional =>
      -- The test is evaluated first, and an idle evaluator has no value for it.
      dsimp only at hrest
      split at hrest
      · obtain ⟨w, k', hidle, -⟩ := bind_eq_ok hrest
        cases hidle
      · obtain ⟨w, k', hidle, -⟩ := bind_eq_ok hrest
        cases hidle
      · cases hrest
  | begin =>
      rcases evalSequence_idle env tail k with hseq | ⟨f, hseq⟩
      · cases hseq.symm.trans hrest
        exact .inr (.inr ⟨rfl, rfl⟩)
      · cases hseq.symm.trans hrest
  | assignment =>
      dsimp only at hrest
      split at hrest
      · obtain ⟨w, k', hidle, -⟩ := bind_eq_ok hrest
        cases hidle
      · exact absurd hrest failShowing_ne_ok
      · cases hrest
  | lambda => exact .inr (.inl ⟨rfl, evalForm_lambda_eq_ok h⟩)

/-- A form that fails without evaluating a part of itself has changed
nothing, or has made a closure of which no event could be noted. -/
theorem evalForm_idle_eq_error {depth : Nat} {env : Ref} {form : Form} {tail : Value}
    {m m' : Machine} {f : Fault} (h : evalForm depth idle env form tail m = .error f m') :
    m'.store = m.store ∨
    (form = .lambda ∧ ∃ k operands, m.store.closureOf env tail = some k ∧
      m.store.spine? tail = some (operands, .nil) ∧ m'.store = (m.store.newClosure k).2) := by
  rcases bind_eq_error h with hoperands | ⟨operands, k, hoperands, hrest⟩
  · exact .inl ((keeps_formOperands form tail).of_error hoperands)
  obtain ⟨hspine, rfl⟩ := formOperands_eq_ok hoperands
  cases form with
  | quote =>
      dsimp only at hrest
      split at hrest <;> cases hrest
      exact .inl rfl
  | conditional =>
      dsimp only at hrest
      split at hrest <;> cases hrest <;> exact .inl rfl
  | begin =>
      rcases evalSequence_idle env tail k with hseq | ⟨f', hseq⟩
      · cases hseq.symm.trans hrest
      · cases hseq.symm.trans hrest
        exact .inl rfl
  | assignment =>
      dsimp only at hrest
      split at hrest
      · cases hrest
        exact .inl rfl
      · exact .inl ((Keeps.failShowing _ _ _).of_error hrest)
      · cases hrest
        exact .inl rfl
  | lambda => exact (evalForm_lambda_eq_error h).imp_right fun hmade => ⟨rfl, hmade⟩

/-! ### Operations -/

/-- What a successful operation can do: its result and the store after
it. -/
inductive Operation.Effect (s : Store) (args : List Value) : Value → Store → Prop
  | number (n : Number) : Effect s args (.number n) s
  | boolean (b : Bool) : Effect s args (.boolean b) s
  | car {r : Ref} {c : Cell} (arg : .pair r ∈ args) (cell : s.cells[r]? = some c) :
      Effect s args c.car s
  | cdr {r : Ref} {c : Cell} (arg : .pair r ∈ args) (cell : s.cells[r]? = some c) :
      Effect s args c.cdr s
  | cons {a d : Value} (first : a ∈ args) (rest : d ∈ args ∨ d = .nil) :
      Effect s args (s.cons a d).1 (s.cons a d).2
  | setCar {r : Ref} {v : Value} (arg : .pair r ∈ args) (new : v ∈ args)
      (cell : (s.cells[r]?).isSome) : Effect s args (.pair r) (s.setCar r v)
  | setCdr {r : Ref} {v : Value} (arg : .pair r ∈ args) (new : v ∈ args)
      (cell : (s.cells[r]?).isSome) : Effect s args (.pair r) (s.setCdr r v)

namespace Operation

theorem keeps_pairArgument (depth : Nat) (op : Operation) (v : Value) :
    Keeps (pairArgument depth op v) := by
  refine (Keeps.inquire _).bind fun found => ?_
  split
  · exact .pure _
  · exact .failShowing _ _ _

theorem pairArgument_eq_ok {depth : Nat} {op : Operation} {v : Value} {m m' : Machine} {r : Ref}
    {c : Cell} (h : pairArgument depth op v m = .ok (r, c) m') :
    v = .pair r ∧ m.store.cells[r]? = some c ∧ m' = m := by
  obtain ⟨found, k, hfound, hrest⟩ := bind_eq_ok h
  cases hfound
  dsimp only at hrest
  cases v with
  | pair q =>
      cases hcell : m.store.cell? (.pair q) with
      | some c' =>
          rw [hcell] at hrest
          cases hrest
          exact ⟨rfl, hcell, rfl⟩
      | none =>
          rw [hcell] at hrest
          exact absurd hrest failShowing_ne_ok
  | _ => exact absurd hrest failShowing_ne_ok

theorem keeps_numberArguments (depth : Nat) (op : Operation) (a b : Value) :
    Keeps (numberArguments depth op a b) := by
  unfold numberArguments
  split
  · exact .pure _
  · exact (Keeps.examine _).bind fun _ => (Keeps.examine _).bind fun _ => .throw _

theorem keeps_arithmetic (depth : Nat) (op : Operation) (f : Number → Number → Option Number)
    (a b : Value) : Keeps (arithmetic depth op f a b) := by
  refine (keeps_numberArguments depth op a b).bind fun args => ?_
  obtain ⟨x, y⟩ := args
  dsimp only
  split
  · exact .pure _
  · exact .throw _

theorem arithmetic_effect {depth : Nat} {op : Operation} {f : Number → Number → Option Number}
    {a b v : Value} {m m' : Machine} {args : List Value}
    (h : arithmetic depth op f a b m = .ok v m') : Effect m.store args v m'.store := by
  have hstore := (keeps_arithmetic depth op f a b).of_ok h
  obtain ⟨⟨x, y⟩, k, -, hrest⟩ := bind_eq_ok h
  dsimp only at hrest
  cases hf : f x y with
  | some r =>
      rw [hf] at hrest
      cases hrest
      rw [hstore]
      exact .number _
  | none => rw [hf] at hrest; cases hrest

theorem comparison_effect {depth : Nat} {op : Operation} {f : Number → Number → Bool}
    {a b v : Value} {m m' : Machine} {args : List Value}
    (h : comparison depth op f a b m = .ok v m') : Effect m.store args v m'.store := by
  obtain ⟨⟨x, y⟩, k, hnumbers, hrest⟩ := bind_eq_ok h
  have hstore := (keeps_numberArguments depth op a b).of_ok hnumbers
  cases hrest
  rw [hstore]
  exact .boolean _

/-- A successful operation has one of the listed effects. -/
theorem run_eq_ok {depth : Nat} {op : Operation} {args : List Value} {v : Value} {m m' : Machine}
    (h : op.run depth args m = .ok v m') : Effect m.store args v m'.store := by
  unfold run at h
  -- The cases come in the order of `run`, and `cons` has two.
  split at h
  · cases h
    exact .cons List.mem_cons_self (.inr rfl)
  · cases h
    exact .cons List.mem_cons_self (.inl (by simp))
  · obtain ⟨⟨r, c⟩, k, harg, hrest⟩ := bind_eq_ok h
    obtain ⟨rfl, hcell, rfl⟩ := pairArgument_eq_ok harg
    cases hrest
    exact .car List.mem_cons_self hcell
  · obtain ⟨⟨r, c⟩, k, harg, hrest⟩ := bind_eq_ok h
    obtain ⟨rfl, hcell, rfl⟩ := pairArgument_eq_ok harg
    cases hrest
    exact .cdr List.mem_cons_self hcell
  · obtain ⟨⟨r, c⟩, k, harg, hrest⟩ := bind_eq_ok h
    obtain ⟨rfl, hcell, rfl⟩ := pairArgument_eq_ok harg
    cases hrest
    exact .setCar List.mem_cons_self (by simp) (by simp [hcell])
  · obtain ⟨⟨r, c⟩, k, harg, hrest⟩ := bind_eq_ok h
    obtain ⟨rfl, hcell, rfl⟩ := pairArgument_eq_ok harg
    cases hrest
    exact .setCdr List.mem_cons_self (by simp) (by simp [hcell])
  · exact arithmetic_effect h
  · exact arithmetic_effect h
  · exact arithmetic_effect h
  · exact comparison_effect h
  · exact comparison_effect h
  · exact comparison_effect h
  · cases h
    exact .boolean _
  · cases h
    exact .boolean _
  · cases h
    exact .boolean _
  · cases h
    exact .boolean _
  · cases h

/-- An operation that fails has changed nothing. -/
theorem run_eq_error {depth : Nat} {op : Operation} {args : List Value} {m m' : Machine}
    {f : Fault} (h : op.run depth args m = .error f m') : m'.store = m.store := by
  unfold run at h
  split at h
  · cases h
  · cases h
  · exact ((keeps_pairArgument depth _ _).bind fun _ => .pure _).of_error h
  · exact ((keeps_pairArgument depth _ _).bind fun _ => .pure _).of_error h
  -- The two assignments change a pair only after their check.
  · rcases bind_eq_error h with harg | ⟨_, k, -, hrest⟩
    · exact (keeps_pairArgument depth _ _).of_error harg
    · cases hrest
  · rcases bind_eq_error h with harg | ⟨_, k, -, hrest⟩
    · exact (keeps_pairArgument depth _ _).of_error harg
    · cases hrest
  · exact (keeps_arithmetic depth _ _ _ _).of_error h
  · exact (keeps_arithmetic depth _ _ _ _).of_error h
  · exact (keeps_arithmetic depth _ _ _ _).of_error h
  · exact ((keeps_numberArguments depth _ _ _).bind fun _ => .pure _).of_error h
  · exact ((keeps_numberArguments depth _ _ _).bind fun _ => .pure _).of_error h
  · exact ((keeps_numberArguments depth _ _ _).bind fun _ => .pure _).of_error h
  · cases h
  · cases h
  · cases h
  · cases h
  · cases h
    rfl

end Operation

/-- A primitive with the right number of arguments is its operation, after an
event that always has a text. -/
theorem applyPrimitive_of_count (depth : Nat) {p : Primitive} {args : List Value} {m : Machine}
    (h : (args.length : Int) = p.arity) :
    ∃ m', m'.store = m.store ∧ applyPrimitive depth p args m = p.operation.run depth args m' := by
  unfold applyPrimitive
  rw [if_neg (fun hne => hne h)]
  cases hj : m.journal with
  | none =>
      have hnote : note (fun _ => .ok (.primitiveCalled p.name args.length)) m = .ok () m := by
        simp [note, hj]
      exact ⟨m, rfl, bind_run_ok hnote⟩
  | some events =>
      let m' : Machine := ⟨m.store, some (.primitiveCalled p.name args.length :: events)⟩
      have hnote : note (fun _ => .ok (.primitiveCalled p.name args.length)) m = .ok () m' := by
        simp [note, hj, m']
      exact ⟨m', rfl, bind_run_ok hnote⟩

/-- A primitive checks the number of its arguments, and then is its
operation. -/
theorem applyPrimitive_run (depth : Nat) (p : Primitive) (args : List Value) (m : Machine) :
    (∃ f m', applyPrimitive depth p args m = .error f m' ∧ m'.store = m.store) ∨
    ∃ m', m'.store = m.store ∧ applyPrimitive depth p args m = p.operation.run depth args m' := by
  by_cases harity : (args.length : Int) = p.arity
  · exact .inr (applyPrimitive_of_count depth harity)
  · refine .inl ⟨.arity p.name (some p.arity) (some args.length), m, ?_, rfl⟩
    unfold applyPrimitive
    rw [if_pos harity]
    rfl

/-- Applying something other than a closure: a primitive has the effect of
its operation, and all else fails. -/
theorem applyWith_eq_ok {depth : Nat} {fn : Value} {args : List Value} {v : Value} {m m' : Machine}
    (hfn : ∀ r k, fn = .closure r → m.store.closures[r]? ≠ some k)
    (h : applyWith depth idle fn args m = .ok v m') : Operation.Effect m.store args v m'.store := by
  cases fn with
  | primitive r =>
      obtain ⟨found, k, hfound, hrest⟩ := bind_eq_ok h
      cases hfound
      dsimp only at hrest
      cases hp : m.store.primitives[r]? with
      | none =>
          rw [hp] at hrest
          exact absurd hrest failShowing_ne_ok
      | some p =>
          rw [hp] at hrest
          rcases applyPrimitive_run depth p args m with ⟨f, k, hfail, -⟩ | ⟨k, hstore, hrun⟩
          · cases hfail.symm.trans hrest
          · rw [← hstore]
            exact Operation.run_eq_ok (hrun.symm.trans hrest)
  | closure r =>
      -- By assumption it is a closure that is not in the store.
      obtain ⟨found, k, hfound, hrest⟩ := bind_eq_ok h
      cases hfound
      dsimp only at hrest
      cases hk : m.store.closures[r]? with
      | none =>
          rw [hk] at hrest
          exact absurd hrest failShowing_ne_ok
      | some k => exact absurd hk (hfn r k rfl)
  | _ => exact absurd h failShowing_ne_ok

theorem applyWith_eq_error {depth : Nat} {fn : Value} {args : List Value} {f : Fault}
    {m m' : Machine} (hfn : ∀ r k, fn = .closure r → m.store.closures[r]? ≠ some k)
    (h : applyWith depth idle fn args m = .error f m') : m'.store = m.store := by
  cases fn with
  | primitive r =>
      rcases bind_eq_error h with hfound | ⟨found, k, hfound, hrest⟩
      · cases hfound
      cases hfound
      dsimp only at hrest
      cases hp : m.store.primitives[r]? with
      | none =>
          rw [hp] at hrest
          exact (Keeps.failShowing _ _ _).of_error hrest
      | some p =>
          rw [hp] at hrest
          rcases applyPrimitive_run depth p args m with ⟨f', k, hfail, hstore⟩ | ⟨k, hstore, hrun⟩
          · cases hfail.symm.trans hrest
            exact hstore
          · exact (Operation.run_eq_error (hrun.symm.trans hrest)).trans hstore
  | closure r =>
      rcases bind_eq_error h with hfound | ⟨found, k, hfound, hrest⟩
      · cases hfound
      cases hfound
      dsimp only at hrest
      cases hk : m.store.closures[r]? with
      | none =>
          rw [hk] at hrest
          exact (Keeps.failShowing _ _ _).of_error hrest
      | some k => exact absurd hk (hfn r k rfl)
  | _ => exact (Keeps.failShowing _ _ _).of_error h

/-! ### Parameters -/

theorem mem_insert {name : String} {v : Value} {b : String × Value}
    {bindings : List (String × Value)} (h : b ∈ Frame.insert name v bindings) :
    b = (name, v) ∨ b ∈ bindings := by
  induction bindings with
  | nil => exact .inl (List.mem_singleton.mp h)
  | cons first rest ih =>
      rw [Frame.insert] at h
      split at h
      · rcases List.mem_cons.mp h with rfl | h
        · exact .inl rfl
        · exact .inr (List.mem_cons_of_mem _ h)
      · rcases List.mem_cons.mp h with rfl | h
        · exact .inr List.mem_cons_self
        · exact (ih h).imp_right (List.mem_cons_of_mem _)

/-- The names after one has been bound. -/
theorem Frame.mem_names_insert {name other : String} {bindings : List (String × Value)}
    (w : Value) : other ∈ (Frame.insert name w bindings).map Prod.fst ↔
      other = name ∨ other ∈ bindings.map Prod.fst := by
  induction bindings with
  | nil => simp [Frame.insert]
  | cons b rest ih =>
      obtain ⟨first, u⟩ := b
      by_cases hname : first = name
      · simp [Frame.insert, hname]
      · simp only [Frame.insert, hname, if_false, List.map_cons, List.mem_cons, ih]
        exact or_left_comm

/-- How parameters can be paired: not at all, or one with the first value
and then the others, or none is left, or a symbol takes all values that are
left. -/
theorem pairFormals_run (depth : Nat) (formals : Value) (count paired : Nat)
    (bindings : List (String × Value)) (p : Value) (values : List Value) (m : Machine) :
    (∃ f m', pairFormals depth formals count paired bindings p values m = .error f m' ∧
      m'.store = m.store) ∨
    (∃ (c : Cell) (name : String) (v : Value) (rest : List Value), values = v :: rest ∧
      pairFormals depth formals count paired bindings p values m
        = pairFormals depth formals count (paired + 1) (Frame.insert name v bindings) c.cdr
            rest m) ∨
    pairFormals depth formals count paired bindings p values m = .ok bindings m ∨
    ∃ name, pairFormals depth formals count paired bindings p values m
      = .ok (Frame.insert name (m.store.list values .nil).1 bindings)
          { m with store := (m.store.list values .nil).2 } := by
  have hkept {x : Eval (List (String × Value))} (hx : Keeps x) (hfail : ∀ b m', x m ≠ .ok b m') :
      ∃ f m', x m = .error f m' ∧ m'.store = m.store := by
    cases h : x m with
    | ok b m' => exact absurd h (hfail b m')
    | error f m' => exact ⟨f, m', rfl, hx.of_error h⟩
  -- Only the call itself is opened, not the one that it may end in.
  generalize hres : pairFormals depth formals count paired bindings p values m = res
  rw [pairFormals.eq_def] at hres
  dsimp only at hres
  rw [inquire_bind_run] at hres
  cases hcell : m.store.cell? p with
  | some c =>
      rw [hcell] at hres
      dsimp only at hres
      cases hcar : c.car with
      | symbol name =>
          rw [hcar] at hres
          cases values with
          | nil =>
              refine .inl (hres ▸ hkept ((Keeps.examine _).bind fun _ => .throw _) fun b m' h => ?_)
              obtain ⟨missing, k, -, hthrow⟩ := bind_eq_ok h
              cases hthrow
          | cons v rest => exact .inr (.inl ⟨c, name, v, rest, rfl, hres.symm⟩)
      | _ =>
          rw [hcar] at hres
          exact .inl (hres ▸ hkept (.failShowing _ _ _) fun b m' => failShowing_ne_ok)
  | none =>
      rw [hcell] at hres
      cases p with
      | nil =>
          cases values with
          | nil => exact .inr (.inr (.inl hres.symm))
          | cons v values => exact .inl ⟨_, m, hres.symm, rfl⟩
      | symbol name => exact .inr (.inr (.inr ⟨name, hres.symm⟩))
      | _ => exact .inl (hres ▸ hkept (.failShowing _ _ _) fun b m' => failShowing_ne_ok)

/-- Parameters that cannot be paired leave the store as it is. Otherwise
every binding has one of the values for its value, or the list of those that
are left, which is the only thing made. -/
theorem pairFormals_spec (depth : Nat) (formals : Value) (count : Nat) (values : List Value)
    (m : Machine) :
    ∀ (paired : Nat) (bindings : List (String × Value)) (p : Value),
      (∃ f m', pairFormals depth formals count paired bindings p values m = .error f m' ∧
        m'.store = m.store) ∨
      ∃ rest bound, (∀ v ∈ rest, v ∈ values) ∧
        (∀ b ∈ bound, b ∈ bindings ∨ b.2 ∈ values ∨ b.2 = (m.store.list rest .nil).1) ∧
        pairFormals depth formals count paired bindings p values m
          = .ok bound { m with store := (m.store.list rest .nil).2 } := by
  induction values with
  | nil =>
      intro paired bindings p
      rcases pairFormals_run depth formals count paired bindings p [] m with hfail |
        ⟨c, name, v, rest, hvalues, -⟩ | hdone | ⟨name, hsymbol⟩
      · exact .inl hfail
      · cases hvalues
      · exact .inr ⟨[], bindings, by simp, fun b hb => .inl hb, hdone⟩
      · refine .inr ⟨[], _, by simp, fun b hb => ?_, hsymbol⟩
        exact (mem_insert hb).elim (fun h => .inr (.inr (by rw [h]))) .inl
  | cons v values ih =>
      intro paired bindings p
      rcases pairFormals_run depth formals count paired bindings p (v :: values) m with hfail |
        ⟨c, name, w, rest, hvalues, hpaired⟩ | hdone | ⟨name, hsymbol⟩
      · exact .inl hfail
      · cases hvalues
        rw [hpaired]
        -- The first value is bound, and those behind it are paired as before.
        refine (ih (paired + 1) (Frame.insert name v bindings) c.cdr).imp_right ?_
        rintro ⟨rest, bound, hrest, hbound, hrun⟩
        refine ⟨rest, bound, fun x hx => List.mem_cons_of_mem v (hrest x hx), fun b hb => ?_, hrun⟩
        rcases hbound b hb with hb | hb | hb
        · rcases mem_insert hb with rfl | hb
          · exact .inr (.inl List.mem_cons_self)
          · exact .inl hb
        · exact .inr (.inl (List.mem_cons_of_mem v hb))
        · exact .inr (.inr hb)
      · exact .inr ⟨[], bindings, by simp, fun b hb => .inl hb, hdone⟩
      · refine .inr ⟨v :: values, _, fun x hx => hx, fun b hb => ?_, hsymbol⟩
        exact (mem_insert hb).elim (fun h => .inr (.inr (by rw [h]))) .inl

/-- Entering a closure fails with the store as it was, or makes the list of
remaining values and then a frame inside that of the closure. The frame is
made even if no event of it can be noted. -/
theorem enterClosure_run (depth : Nat) (fn : Value) (k : Closure) (args : List Value)
    (m : Machine) :
    (∃ f m', enterClosure depth fn k args m = .error f m' ∧ m'.store = m.store) ∨
    ∃ rest bindings, (∀ v ∈ rest, v ∈ args) ∧
      (∀ b ∈ bindings, b.2 ∈ args ∨ b.2 = (m.store.list rest .nil).1) ∧
      (outcome (enterClosure depth fn k args m)).store
        = ((m.store.list rest .nil).2.newFrame ⟨bindings, some k.frame⟩).2 ∧
      ∀ env m', enterClosure depth fn k args m = .ok env m' →
        env = ((m.store.list rest .nil).2.newFrame ⟨bindings, some k.frame⟩).1 := by
  unfold enterClosure extend
  rw [bind_assoc]
  rcases pairFormals_spec depth k.formals args.length args m 0 [] k.formals with
    ⟨f, m', hpair, hstore⟩ | ⟨rest, bindings, hrest, hbindings, hpair⟩
  · exact .inl ⟨f, m', bind_run_error hpair, hstore⟩
  right
  refine ⟨rest, bindings, hrest, fun b hb => (hbindings b hb).resolve_left List.not_mem_nil, ?_⟩
  rw [bind_run_ok hpair]
  constructor
  -- What follows the new frame only notes events.
  · rw [Keeps.outcome_bind fun env => (Keeps.note _).bind fun _ => .pure _]
    exact ((Keeps.note _).bind fun _ => .pure _) ⟨_, m.journal⟩
  · intro env m' h
    obtain ⟨r, k₁, hmake, h₁⟩ := bind_eq_ok h
    obtain ⟨r', k₂, hframe, h₂⟩ := bind_eq_ok hmake
    cases hframe
    obtain ⟨-, k₃, -, h₃⟩ := bind_eq_ok h₂
    cases h₃
    obtain ⟨-, k₄, -, h₄⟩ := bind_eq_ok h₁
    cases h₄
    rfl

end MiniScheme
