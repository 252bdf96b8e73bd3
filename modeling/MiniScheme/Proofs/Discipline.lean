import Mathlib.Order.Basic
import MiniScheme.Proofs.Spine
import MiniScheme.Proofs.Stepping

/-!
# `MiniScheme.Proofs.Discipline`: invariants of runs

Many properties of a run have the same shape: the store is in order, every
value that is held somewhere may stand where it stands, every environment
in use may be used, and no step spoils any of it. A state of a run is then
seen as a *world*, a store in order together with whatever the property
remembers about it, and worlds are ordered by what may become of them. What
is asked of a world is a `Demand`, and a `Discipline` is a demand that each
operation on the store meets.

Where a value stands is its `Role`. The same pairs serve as code and as
data, so what a pair may hold depends on what it is a part of: an
expression, the operands of a call, the datum of a quotation.

`Discipline.step` goes through all steps once and `Discipline.leads` through
all runs. The theorems about `evaluate`, `apply` and `run` follow with the
adequacy of steps.
-/

set_option autoImplicit false

namespace MiniScheme

/-! ### Roles -/

/-- What a value is a part of. -/
inductive Role where
  /-- An expression. -/
  | expression
  /-- A list of expressions, or the rest of one. -/
  | operands
  /-- The operands of `lambda`: parameters, and then a body. -/
  | abstraction
  /-- The operands of `quote`. -/
  | quotation
  /-- Parameters, and what else is never evaluated. -/
  | inert
  /-- Something that expressions have for a value. -/
  | datum
deriving DecidableEq

/-- The role of the operands of a special form. -/
def Form.operandsRole : Form → Role
  | .quote => .quotation
  | .lambda => .abstraction
  | .conditional | .begin | .assignment => .operands

namespace Role

/-- The role of the first field of a pair. Only a quotation with a single
operand has a datum. -/
def onCar : Role → Cell → Role
  | .expression, _ | .operands, _ => .expression
  | .abstraction, _ | .inert, _ => .inert
  | .quotation, c => if c.cdr = .nil then .datum else .inert
  | .datum, _ => .datum

/-- The role of the second field of a pair. -/
def onCdr : Role → Cell → Role
  | .expression, c =>
    match Form.ofHead? c.car with
    | some form => form.operandsRole
    | none => .operands
  | .operands, _ | .abstraction, _ => .operands
  | .quotation, _ | .inert, _ => .inert
  | .datum, _ => .datum

end Role

/-- The value refers to no object. -/
def Value.IsAtom : Value → Prop
  | .pair _ | .vector _ | .closure _ | .primitive _ => False
  | _ => True

/-! ### Disciplines -/

/-- What is asked of a store and of all that is held beside it. -/
structure Demand (World : Type) [Preorder World] where
  store : World → Store
  /-- The value may stand where the role says. -/
  Holds : World → Role → Value → Prop
  /-- The frame may be used as an environment. -/
  Visible : World → Ref → Prop
  /-- The value may be the body of a closure. -/
  Body : World → Value → Prop
  /-- These may be the expressions read so far. -/
  Reads : World → List Value → Prop
  /-- A text may hold the datum. -/
  Admits : Datum → Prop := fun _ => True
  admits_read {depth : Nat} {source : String} {d : Datum} :
    d ∈ (read depth source).1 → Admits d := by exact fun _ => trivial
  holds_mono {w w' : World} {role : Role} {v : Value} : w ≤ w' → Holds w role v → Holds w' role v
  visible_mono {w w' : World} {env : Ref} : w ≤ w' → Visible w env → Visible w' env
  body_mono {w w' : World} {v : Value} : w ≤ w' → Body w v → Body w' v

/-- The second world may follow the first while nothing is read. -/
def Demand.Next {World : Type} [Preorder World] (D : Demand World) (w w' : World) : Prop :=
  w ≤ w' ∧ ∀ es, D.Reads w es → D.Reads w' es

/-- A demand that each operation on the store meets. -/
structure Discipline (World : Type) [Preorder World] extends Demand World where
  -- What the parts of a value are, given what it is itself.
  atom {w : World} {role : Role} {v : Value} : v.IsAtom → Holds w role v
  constant {w : World} {v : Value} : (∀ r, v ≠ .pair r) → Holds w .expression v → Holds w .datum v
  car {w : World} {role : Role} {r : Ref} {c : Cell} :
    (store w).cells[r]? = some c → Holds w role (.pair r) → Holds w (role.onCar c) c.car
  cdr {w : World} {role : Role} {r : Ref} {c : Cell} :
    (store w).cells[r]? = some c → Holds w role (.pair r) → Holds w (role.onCdr c) c.cdr
  -- A body is checked once, when its closure is made, and walked often.
  body {w : World} {v : Value} {items : List Value} :
    (store w).Spine v items .nil → Holds w .operands v → Body w v
  operands {w : World} {v : Value} : Body w v → Holds w .operands v
  closure {w : World} {r : Ref} {k : Closure} : (store w).closures[r]? = some k →
    Holds w .datum (.closure r) → Body w k.body ∧ Visible w k.frame
  lookup {w : World} {env : Ref} {name : String} {v : Value} :
    (store w).lookup? env name = some v → Visible w env → Holds w .datum v
  assign {w : World} {env r : Ref} {name : String} {v : Value} :
    (store w).locate? env name = some r → Visible w env → Holds w .datum v →
    ∃ w', toDemand.Next w w' ∧ store w' = (store w).bind r name v
  -- Objects that are made or changed.
  cons {w : World} {a d : Value} : Holds w .datum a → Holds w .datum d →
    ∃ w', toDemand.Next w w' ∧ store w' = ((store w).cons a d).2 ∧
      Holds w' .datum ((store w).cons a d).1
  setCar {w : World} {r : Ref} {v : Value} : Holds w .datum (.pair r) → Holds w .datum v →
    ∃ w', toDemand.Next w w' ∧ store w' = (store w).setCar r v
  setCdr {w : World} {r : Ref} {v : Value} : Holds w .datum (.pair r) → Holds w .datum v →
    ∃ w', toDemand.Next w w' ∧ store w' = (store w).setCdr r v
  newClosure {w : World} {k : Closure} : Holds w .inert k.formals → Body w k.body →
    Visible w k.frame → ∃ w', toDemand.Next w w' ∧ store w' = ((store w).newClosure k).2 ∧
      Holds w' .datum ((store w).newClosure k).1
  newFrame {w : World} {bindings : List (String × Value)} {outer : Ref} :
    (∀ b ∈ bindings, Holds w .datum b.2) → Visible w outer →
    ∃ w', toDemand.Next w w' ∧ store w' = ((store w).newFrame ⟨bindings, some outer⟩).2 ∧
      Visible w' ((store w).newFrame ⟨bindings, some outer⟩).1
  load {w : World} {es : List Value} {d : Datum} : Admits d → Reads w es →
    ∃ w', w ≤ w' ∧ store w' = ((store w).load d).2 ∧ Holds w' .expression ((store w).load d).1 ∧
      Reads w' (((store w).load d).1 :: es)

namespace Demand.Next

variable {World : Type} [Preorder World] {D : Demand World} {w w₁ w₂ : World}

protected theorem refl (w : World) : D.Next w w := ⟨le_refl w, fun _ h => h⟩

protected theorem trans (h : D.Next w w₁) (k : D.Next w₁ w₂) : D.Next w w₂ :=
  ⟨h.1.trans k.1, fun es hes => k.2 es (h.2 es hes)⟩

end Demand.Next

namespace Discipline

variable {World : Type} [Preorder World] (D : Discipline World) {w : World}

/-! ### Lists, forms and operations -/

/-- A chain of new pairs with elements that are data is a datum. -/
theorem consAll (items : List Value) : ∀ {w : World} {tail : Value},
    (∀ v ∈ items, D.Holds w .datum v) → D.Holds w .datum tail →
    ∃ w', D.Next w w' ∧ D.store w' = ((D.store w).consAll items tail).2 ∧
      D.Holds w' .datum ((D.store w).consAll items tail).1 := by
  induction items with
  | nil => intro w tail _ htail; exact ⟨w, .refl w, rfl, htail⟩
  | cons v items ih =>
      intro w tail hitems htail
      obtain ⟨w₁, hnext₁, hstore₁, hpair⟩ := D.cons (hitems v (by simp)) htail
      have hrest : ∀ x ∈ items, D.Holds w₁ .datum x :=
        fun x hx => D.holds_mono hnext₁.1 (hitems x (List.mem_cons_of_mem v hx))
      obtain ⟨w₂, hnext₂, hstore₂, hchain⟩ := ih hrest hpair
      rw [hstore₁] at hstore₂ hchain
      exact ⟨w₂, hnext₁.trans hnext₂, hstore₂, hchain⟩

theorem list {items : List Value} (hitems : ∀ v ∈ items, D.Holds w .datum v) :
    ∃ w', D.Next w w' ∧ D.store w' = ((D.store w).list items .nil).2 ∧
      D.Holds w' .datum ((D.store w).list items .nil).1 :=
  D.consAll items.reverse (fun v hv => hitems v (List.mem_reverse.mp hv)) (D.atom trivial)

/-- The elements of a list of operands are expressions. -/
theorem expressions {v last : Value} {items : List Value} (h : (D.store w).Spine v items last) :
    D.Holds w .operands v → ∀ e ∈ items, D.Holds w .expression e := by
  induction h with
  | last => intro _ e he; exact absurd he List.not_mem_nil
  | link cell _ ih =>
      intro hv e he
      obtain ⟨r, rfl, hr⟩ := Store.cell?_eq_some cell
      rcases List.mem_cons.mp he with rfl | he
      · exact D.car hr hv
      · exact ih (D.cdr hr hv) e he

/-- Operations on data give data. -/
theorem effect {args : List Value} {v : Value} {s : Store}
    (h : Operation.Effect (D.store w) args v s) (hargs : ∀ a ∈ args, D.Holds w .datum a) :
    ∃ w', D.Next w w' ∧ D.store w' = s ∧ D.Holds w' .datum v := by
  cases h with
  | number n => exact ⟨w, .refl w, rfl, D.atom trivial⟩
  | boolean b => exact ⟨w, .refl w, rfl, D.atom trivial⟩
  | car arg cell => exact ⟨w, .refl w, rfl, D.car cell (hargs _ arg)⟩
  | cdr arg cell => exact ⟨w, .refl w, rfl, D.cdr cell (hargs _ arg)⟩
  | @cons a d first rest =>
      have hd : D.Holds w .datum d := by
        rcases rest with hd | rfl
        · exact hargs d hd
        · exact D.atom trivial
      exact D.cons (hargs a first) hd
  | setCar arg new _ =>
      obtain ⟨w', hnext, hstore⟩ := D.setCar (hargs _ arg) (hargs _ new)
      exact ⟨w', hnext, hstore, D.holds_mono hnext.1 (hargs _ arg)⟩
  | setCdr arg new _ =>
      obtain ⟨w', hnext, hstore⟩ := D.setCdr (hargs _ arg) (hargs _ new)
      exact ⟨w', hnext, hstore, D.holds_mono hnext.1 (hargs _ arg)⟩

/-- A quotation gives a datum. -/
theorem quotation {tail v : Value} (h : (D.store w).Spine tail [v] .nil)
    (htail : D.Holds w .quotation tail) : D.Holds w .datum v := by
  cases h with
  | @link _ _ c _ cell rest =>
      obtain ⟨r, rfl, hr⟩ := Store.cell?_eq_some cell
      have hcdr : c.cdr = .nil := rest.eq_last
      have hcar := D.car hr htail
      rwa [Role.onCar, if_pos hcdr] at hcar

/-- The operands of `lambda` make a closure. -/
theorem abstraction {tail : Value} {items : List Value} {env : Ref} {k : Closure}
    (h : (D.store w).Spine tail items .nil) (hk : (D.store w).closureOf env tail = some k)
    (htail : D.Holds w .abstraction tail) (henv : D.Visible w env) :
    ∃ w', D.Next w w' ∧ D.store w' = ((D.store w).newClosure k).2 ∧
      D.Holds w' .datum ((D.store w).newClosure k).1 := by
  obtain ⟨c, hcell, rfl⟩ := Option.map_eq_some_iff.mp hk
  obtain ⟨r, rfl, hr⟩ := Store.cell?_eq_some hcell
  cases h with
  | link cell rest =>
      obtain rfl := Option.some.inj (hcell.symm.trans cell)
      exact D.newClosure (D.car hr htail) (D.body rest (D.cdr hr htail)) henv

/-! ### Configurations -/

/-- Everything held by what is being done may be held there. -/
def FitsControl (w : World) : Control → Prop
  | .evaluate _ env expr => D.Visible w env ∧ D.Holds w .expression expr
  | .operands _ env fn done rest => D.Visible w env ∧ D.Holds w .datum fn ∧
    (∀ v ∈ done, D.Holds w .datum v) ∧ ∀ e ∈ rest, D.Holds w .expression e
  | .apply _ fn args => D.Holds w .datum fn ∧ ∀ v ∈ args, D.Holds w .datum v
  | .sequence _ env body => D.Visible w env ∧ D.Body w body
  | .walk _ env _ result body =>
    D.Visible w env ∧ D.Holds w .datum result ∧ D.Holds w .operands body
  | .program _ env result data _ =>
    D.Visible w env ∧ D.Holds w .datum result ∧ ∀ d ∈ data, D.Admits d
  | .value v => D.Holds w .datum v
  | .fault _ => True

/-- Everything held by what is left to do may be held there. -/
def FitsTask (w : World) : Task → Prop
  | .choose _ env consequent alternative => D.Visible w env ∧ D.Holds w .expression consequent ∧
    ∀ e ∈ alternative, D.Holds w .expression e
  | .assign env _ => D.Visible w env
  | .call _ env _ tail => D.Visible w env ∧ D.Holds w .operands tail
  | .operand _ env fn done rest => D.Visible w env ∧ D.Holds w .datum fn ∧
    (∀ v ∈ done, D.Holds w .datum v) ∧ ∀ e ∈ rest, D.Holds w .expression e
  | .body _ env _ body => D.Visible w env ∧ D.Holds w .operands body
  | .program _ env rest _ => D.Visible w env ∧ ∀ d ∈ rest, D.Admits d

/-- A moment of a run that keeps the discipline. -/
structure Obeys (w : World) (c : Configuration) : Prop where
  store : D.store w = c.machine.store
  control : D.FitsControl w c.control
  stack : ∀ task ∈ c.stack, D.FitsTask w task
  read : D.Reads w c.read

/-- The discipline is kept in some world from this one on. -/
def Reaches (w : World) (c : Configuration) : Prop := ∃ w', w ≤ w' ∧ D.Obeys w' c

variable {D}

theorem FitsTask.mono {w w' : World} (hle : w ≤ w') {task : Task} (h : D.FitsTask w task) :
    D.FitsTask w' task := by
  cases task with
  | choose =>
      exact ⟨D.visible_mono hle h.1, D.holds_mono hle h.2.1,
        fun e he => D.holds_mono hle (h.2.2 e he)⟩
  | assign => exact D.visible_mono hle h
  | call => exact ⟨D.visible_mono hle h.1, D.holds_mono hle h.2⟩
  | operand =>
      exact ⟨D.visible_mono hle h.1, D.holds_mono hle h.2.1,
        fun v hv => D.holds_mono hle (h.2.2.1 v hv), fun e he => D.holds_mono hle (h.2.2.2 e he)⟩
  | body => exact ⟨D.visible_mono hle h.1, D.holds_mono hle h.2⟩
  | program => exact ⟨D.visible_mono hle h.1, h.2⟩

namespace Obeys

variable {c : Configuration}

theorem goto (h : D.Obeys w c) {control : Control} (hcontrol : D.FitsControl w control) :
    D.Obeys w (c.goto control) :=
  ⟨h.store, hcontrol, h.stack, h.read⟩

theorem push (h : D.Obeys w c) {task : Task} (htask : D.FitsTask w task) :
    D.Obeys w (c.push task) := by
  refine ⟨h.store, h.control, fun t ht => ?_, h.read⟩
  rcases List.mem_cons.mp ht with rfl | ht
  · exact htask
  · exact h.stack t ht

/-- Something else is being done, and nothing has changed. -/
theorem reaches_goto (h : D.Obeys w c) {control : Control} (hcontrol : D.FitsControl w control) :
    D.Reaches w (c.goto control) :=
  ⟨w, le_refl w, h.goto hcontrol⟩

theorem reaches_push (h : D.Obeys w c) {task : Task} {control : Control}
    (htask : D.FitsTask w task) (hcontrol : D.FitsControl w control) :
    D.Reaches w ((c.push task).goto control) :=
  ⟨w, le_refl w, (h.push htask).goto hcontrol⟩

/-- An action has been performed: its store is that of a later world, where
its result may be used. -/
theorem reaches_perform {α : Type} (h : D.Obeys w c) {x : Eval α} {next : α → Control}
    (hok : ∀ a m, x c.machine = .ok a m →
      ∃ w', D.Next w w' ∧ D.store w' = m.store ∧ D.FitsControl w' (next a))
    (herror : ∀ f m, x c.machine = .error f m → ∃ w', D.Next w w' ∧ D.store w' = m.store) :
    D.Reaches w (c.perform x next) := by
  unfold Configuration.perform
  cases hx : x c.machine with
  | ok a m =>
      obtain ⟨w', hnext, hstore, hcontrol⟩ := hok a m hx
      exact ⟨w', hnext.1, hstore, hcontrol, fun t ht => (h.stack t ht).mono hnext.1,
        hnext.2 _ h.read⟩
  | error f m =>
      obtain ⟨w', hnext, hstore⟩ := herror f m hx
      exact ⟨w', hnext.1, hstore, trivial, fun _ ht => absurd ht List.not_mem_nil,
        hnext.2 _ h.read⟩

/-- An action that changes nothing has been performed. -/
theorem reaches_perform_of_keeps {α : Type} (h : D.Obeys w c) {x : Eval α} {next : α → Control}
    (hx : Keeps x) (hok : ∀ a m, x c.machine = .ok a m → D.FitsControl w (next a)) :
    D.Reaches w (c.perform x next) :=
  h.reaches_perform
    (fun a m ha => ⟨w, .refl w, h.store.trans (hx.of_ok ha).symm, hok a m ha⟩)
    (fun _ _ hf => ⟨w, .refl w, h.store.trans (hx.of_error hf).symm⟩)

theorem reaches_throw {α : Type} (h : D.Obeys w c) (f : Fault) (next : α → Control) :
    D.Reaches w (c.perform (throw f) next) :=
  h.reaches_perform_of_keeps (.throw f) fun _ _ hok => by cases hok

end Obeys

/-! ### Steps -/

section Steps

variable {c : Configuration} {depth : Nat} {env : Ref}

/-- A form that evaluates no part of itself. -/
theorem reaches_evalForm_idle (h : D.Obeys w c) (henv : D.Visible w env) {form : Form}
    {tail : Value} (htail : D.Holds w form.operandsRole tail) :
    D.Reaches w (c.perform (evalForm depth idle env form tail) .value) := by
  refine h.reaches_perform (fun v m hv => ?_) (fun f m hf => ?_)
  · rcases evalForm_idle_eq_ok hv with ⟨rfl, hspine, rfl⟩ |
      ⟨rfl, k, operands, hk, hspine, rfl, hstore⟩ | ⟨rfl, rfl⟩
    · rw [← h.store, Store.spine?_eq_some_iff] at hspine
      exact ⟨w, .refl w, h.store, D.quotation hspine htail⟩
    · rw [← h.store] at hk hspine hstore ⊢
      rw [hstore]
      exact D.abstraction (Store.spine?_eq_some_iff.mp hspine) hk htail henv
    · exact ⟨w, .refl w, h.store, D.atom trivial⟩
  · rcases evalForm_idle_eq_error hf with hstore | ⟨rfl, k, operands, hk, hspine, hstore⟩
    · exact ⟨w, .refl w, h.store.trans hstore.symm⟩
    · -- A `lambda` whose event cannot be noted leaves its closure behind.
      rw [← h.store] at hk hspine hstore
      rw [hstore]
      obtain ⟨w', hnext, hstore', -⟩ :=
        D.abstraction (Store.spine?_eq_some_iff.mp hspine) hk htail henv
      exact ⟨w', hnext, hstore'⟩

theorem reaches_stepForm (h : D.Obeys w c) (henv : D.Visible w env) {form : Form} {tail : Value}
    (htail : D.Holds w form.operandsRole tail) :
    D.Reaches w (c.stepForm depth env form tail) := by
  have hspine {operands : List Value} {m : Machine}
      (hoperands : formOperands form tail c.machine = .ok operands m) :
      (D.store w).Spine tail operands .nil := by
    rw [h.store]
    exact Store.spine?_eq_some_iff.mp (formOperands_eq_ok hoperands).1
  unfold Configuration.stepForm
  -- A conditional without and with an alternative, `begin`, an assignment,
  -- and all that needs no evaluator.
  split
  · rename_i hoperands
    have hparts := D.expressions (hspine hoperands) htail
    exact h.reaches_push ⟨henv, hparts _ (by simp), by simp⟩ ⟨henv, hparts _ (by simp)⟩
  · rename_i hoperands
    have hparts := D.expressions (hspine hoperands) htail
    exact h.reaches_push ⟨henv, hparts _ (by simp), by simpa using hparts _ (by simp)⟩
      ⟨henv, hparts _ (by simp)⟩
  · rename_i hoperands
    exact h.reaches_goto ⟨henv, D.body (hspine hoperands) htail⟩
  · rename_i hoperands
    have hparts := D.expressions (hspine hoperands) htail
    exact h.reaches_push henv ⟨henv, hparts _ (by simp)⟩
  · exact reaches_evalForm_idle h henv htail

theorem reaches_stepEvaluate (h : D.Obeys w c) (henv : D.Visible w env) {expr : Value}
    (hexpr : D.Holds w .expression expr) : D.Reaches w (c.stepEvaluate depth env expr) := by
  unfold Configuration.stepEvaluate
  cases depth with
  | zero => exact h.reaches_throw _ _
  | succ depth =>
      dsimp only
      cases hcell : c.machine.store.cell? expr with
      | some cell =>
          -- The head decides what the operands are, and so their role.
          obtain ⟨r, rfl, hr⟩ := Store.cell?_eq_some hcell
          rw [← h.store] at hr
          have hcdr := D.cdr hr hexpr
          dsimp only
          cases hform : Form.ofHead? cell.car with
          | some form =>
              simp only [Role.onCdr, hform] at hcdr
              exact reaches_stepForm h henv hcdr
          | none =>
              simp only [Role.onCdr, hform] at hcdr
              exact h.reaches_push ⟨henv, hcdr⟩ ⟨henv, D.car hr hexpr⟩
      | none =>
          refine h.reaches_perform (fun v m hv => ?_) (fun f m hf => ?_)
          · obtain ⟨rfl, hvalue⟩ := evaluateWith_eq_ok hcell hv
            refine ⟨w, .refl w, h.store, ?_⟩
            rcases hvalue with ⟨hself, hpair⟩ | ⟨name, hlookup⟩
            · exact D.constant hpair (hself ▸ hexpr)
            · rw [← h.store] at hlookup
              exact D.lookup hlookup henv
          · exact ⟨w, .refl w, h.store.trans (evaluateWith_eq_error hcell hf).symm⟩

/-- A closure is entered: the remaining arguments become a list, and then
there is a new frame. The frame is there even if the entry fails
afterwards. -/
theorem next_enterClosure (depth : Nat) (fn : Value) {m : Machine} (hstore : D.store w = m.store)
    {k : Closure} {args : List Value} (hframe : D.Visible w k.frame)
    (hargs : ∀ v ∈ args, D.Holds w .datum v) :
    ∃ w', D.Next w w' ∧ D.store w' = (outcome (enterClosure depth fn k args m)).store ∧
      ∀ env m', enterClosure depth fn k args m = .ok env m' → D.Visible w' env := by
  rcases enterClosure_run depth fn k args m with ⟨f, m', hfail, hkept⟩ |
    ⟨rest, bindings, hrest, hbindings, hmade, henv⟩
  · rw [hfail]
    exact ⟨w, .refl w, hstore.trans hkept.symm, by rintro env m' ⟨⟩⟩
  · obtain ⟨w₁, hnext₁, hstore₁, hlist⟩ := D.list fun v hv => hargs v (hrest v hv)
    have hvalues : ∀ b ∈ bindings, D.Holds w₁ .datum b.2 := by
      intro b hb
      rcases hbindings b hb with harg | hlast
      · exact D.holds_mono hnext₁.1 (hargs _ harg)
      · rw [hlast, ← hstore]
        exact hlist
    obtain ⟨w₂, hnext₂, hstore₂, hvisible⟩ :=
      D.newFrame hvalues (D.visible_mono hnext₁.1 hframe)
    rw [hstore₁, hstore] at hstore₂ hvisible
    refine ⟨w₂, hnext₁.trans hnext₂, hstore₂.trans hmade.symm, fun r m' hr => ?_⟩
    rw [henv r m' hr]
    exact hvisible

theorem reaches_enterClosure (h : D.Obeys w c) {fn : Value} {k : Closure} {args : List Value}
    (hbody : D.Body w k.body) (hframe : D.Visible w k.frame)
    (hargs : ∀ v ∈ args, D.Holds w .datum v) :
    D.Reaches w
      (c.perform (enterClosure depth fn k args) fun env => .sequence depth env k.body) := by
  obtain ⟨w', hnext, hstore, henv⟩ := next_enterClosure depth fn h.store hframe hargs
  refine h.reaches_perform (fun r m hr => ?_) (fun f m hf => ?_)
  · rw [hr] at hstore
    exact ⟨w', hnext, hstore, henv r m hr, D.body_mono hnext.1 hbody⟩
  · rw [hf] at hstore
    exact ⟨w', hnext, hstore⟩

theorem reaches_stepApply (h : D.Obeys w c) {fn : Value} {args : List Value}
    (hfn : D.Holds w .datum fn) (hargs : ∀ v ∈ args, D.Holds w .datum v) :
    D.Reaches w (c.stepApply depth fn args) := by
  have hplain (hclosure : ∀ r k, fn = .closure r → c.machine.store.closures[r]? ≠ some k) :
      D.Reaches w (c.perform (applyWith depth idle fn args) .value) := by
    refine h.reaches_perform (fun v m hv => ?_) (fun f m hf => ?_)
    · have heffect := applyWith_eq_ok hclosure hv
      rw [← h.store] at heffect
      exact D.effect heffect hargs
    · exact ⟨w, .refl w, h.store.trans (applyWith_eq_error hclosure hf).symm⟩
  unfold Configuration.stepApply
  split
  · rename_i r
    cases hk : c.machine.store.closures[r]? with
    | some k =>
        rw [← h.store] at hk
        obtain ⟨hbody, hframe⟩ := D.closure hk hfn
        exact reaches_enterClosure h hbody hframe hargs
    | none =>
        refine hplain fun q k hq => ?_
        cases hq
        rw [hk]
        rintro ⟨⟩
  · rename_i hother
    exact hplain fun r k hr => absurd hr (hother r)

theorem reaches_stepWalk (h : D.Obeys w c) (henv : D.Visible w env) {fuel : Nat}
    {result body : Value} (hresult : D.Holds w .datum result) (hbody : D.Holds w .operands body) :
    D.Reaches w (c.stepWalk depth env fuel result body) := by
  unfold Configuration.stepWalk
  cases fuel with
  | zero => exact h.reaches_throw _ _
  | succ fuel =>
      dsimp only
      cases hcell : c.machine.store.cell? body with
      | none => exact h.reaches_goto hresult
      | some cell =>
          obtain ⟨r, rfl, hr⟩ := Store.cell?_eq_some hcell
          rw [← h.store] at hr
          exact h.reaches_push ⟨henv, hbody⟩ ⟨henv, D.car hr hbody⟩

theorem reaches_stepProgram (h : D.Obeys w c) (henv : D.Visible w env) {result : Value}
    (hresult : D.Holds w .datum result) {data : List Datum} (hdata : ∀ d ∈ data, D.Admits d)
    (fault : Option Fault) : D.Reaches w (c.stepProgram depth env result data fault) := by
  unfold Configuration.stepProgram
  split
  · exact h.reaches_goto hresult
  · exact h.reaches_throw _ _
  · rename_i fault d rest
    -- Loading is the one step that adds to the expressions read.
    obtain ⟨w', hle, hstore, hexpr, hread⟩ := D.load (hdata d List.mem_cons_self) h.read
    rw [h.store] at hstore hexpr hread
    have henv' := D.visible_mono hle henv
    refine ⟨w', hle, hstore, ⟨henv', hexpr⟩, fun t ht => ?_, hread⟩
    rcases List.mem_cons.mp ht with rfl | ht
    · exact ⟨henv', fun e he => hdata e (List.mem_cons_of_mem d he)⟩
    · exact (h.stack t ht).mono hle

theorem reaches_assign (h : D.Obeys w c) (henv : D.Visible w env) (name : String) {v : Value}
    (hv : D.Holds w .datum v) :
    D.Reaches w (c.perform (MiniScheme.assign env name v) .value) := by
  rcases assign_run env name v c.machine with ⟨r, hlocate, m, hassign, hstore⟩ | ⟨-, hfail⟩
  · rw [← h.store] at hlocate hstore
    obtain ⟨w', hnext, hstore'⟩ := D.assign hlocate henv hv
    refine h.reaches_perform (fun a k ha => ?_) (fun f k hf => ?_)
    · cases hassign.symm.trans ha
      exact ⟨w', hnext, hstore'.trans hstore.symm, D.holds_mono hnext.1 hv⟩
    · cases hassign.symm.trans hf
  · refine h.reaches_perform (fun a k ha => ?_) (fun f k hf => ?_)
    · cases hfail.symm.trans ha
    · cases hfail.symm.trans hf
      exact ⟨w, .refl w, h.store⟩

theorem reaches_resume (h : D.Obeys w c) {v : Value} {task : Task} (hv : D.Holds w .datum v)
    (htask : D.FitsTask w task) : D.Reaches w (c.resume v task) := by
  cases task with
  | choose depth env consequent alternative =>
      obtain ⟨henv, hconsequent, halternative⟩ := htask
      dsimp only [Configuration.resume]
      by_cases htrue : v.isTrue = true
      · rw [if_pos htrue]
        exact h.reaches_goto ⟨henv, hconsequent⟩
      · rw [if_neg htrue]
        cases alternative with
        | some e => exact h.reaches_goto ⟨henv, halternative e rfl⟩
        | none =>
            have hfalse : D.Holds w .datum (.boolean false) := D.atom trivial
            exact h.reaches_goto hfalse
  | assign env name => exact reaches_assign h htask name hv
  | call depth env expr tail =>
      obtain ⟨henv, htail⟩ := htask
      refine h.reaches_perform_of_keeps (keeps_callOperands _ _ _) fun operands m hoperands => ?_
      have hspine := (callOperands_eq_ok hoperands).1
      rw [← h.store, Store.spine?_eq_some_iff] at hspine
      exact ⟨henv, hv, fun _ hx => absurd hx List.not_mem_nil, D.expressions hspine htail⟩
  | operand depth env fn done rest =>
      obtain ⟨henv, hfn, hdone, hrest⟩ := htask
      refine h.reaches_goto ⟨henv, hfn, fun x hx => ?_, hrest⟩
      rcases List.mem_cons.mp hx with rfl | hx
      · exact hv
      · exact hdone x hx
  | body depth env fuel body =>
      obtain ⟨henv, hbody⟩ := htask
      refine h.reaches_goto ⟨henv, hv, ?_⟩
      -- The walk goes on along the pair as it is now.
      unfold Store.cdrOf
      cases hcell : c.machine.store.cell? body with
      | none => exact hbody
      | some cell =>
          obtain ⟨r, rfl, hr⟩ := Store.cell?_eq_some hcell
          rw [← h.store] at hr
          exact D.cdr hr hbody
  | program depth env rest fault => exact h.reaches_goto ⟨htask.1, hv, htask.2⟩

/-- No step breaks the discipline. -/
theorem step {c' : Configuration} (h : D.Obeys w c) (hstep : c.Steps c') : D.Reaches w c' := by
  obtain ⟨control, stack, machine, read⟩ := c
  unfold Configuration.Steps Configuration.step at hstep
  -- The next step depends on what is being done, and on the stack for values only.
  have hcontrol := h.control
  cases control with
  | evaluate depth env expr =>
      cases hstep
      exact reaches_stepEvaluate h hcontrol.1 hcontrol.2
  | operands depth env fn done rest =>
      obtain ⟨henv, hfn, hdone, hrest⟩ := hcontrol
      cases rest with
      | nil =>
          cases hstep
          exact h.reaches_goto ⟨hfn, fun v hv => hdone v (List.mem_reverse.mp hv)⟩
      | cons e rest =>
          cases hstep
          exact h.reaches_push
            ⟨henv, hfn, hdone, fun x hx => hrest x (List.mem_cons_of_mem e hx)⟩
            ⟨henv, hrest e List.mem_cons_self⟩
  | apply depth fn args =>
      cases hstep
      exact reaches_stepApply h hcontrol.1 hcontrol.2
  | sequence depth env body =>
      cases hstep
      exact h.reaches_goto ⟨hcontrol.1, D.atom trivial, D.operands hcontrol.2⟩
  | walk depth env fuel result body =>
      cases hstep
      exact reaches_stepWalk h hcontrol.1 hcontrol.2.1 hcontrol.2.2
  | program depth env result data fault =>
      cases hstep
      exact reaches_stepProgram h hcontrol.1 hcontrol.2.1 hcontrol.2.2 fault
  | value v =>
      cases stack with
      | nil => cases hstep
      | cons task stack =>
          cases hstep
          have hrest : D.Obeys w ⟨.value v, stack, machine, read⟩ :=
            ⟨h.store, hcontrol, fun t ht => h.stack t (List.mem_cons_of_mem task ht), h.read⟩
          exact reaches_resume hrest hcontrol (h.stack task List.mem_cons_self)
  | fault f => cases hstep

/-- No run breaks the discipline. -/
theorem leads {c' : Configuration} (h : D.Obeys w c) (hleads : c.Leads c') : D.Reaches w c' := by
  induction hleads with
  | refl => exact ⟨w, le_refl w, h⟩
  | tail _ hstep ih =>
      obtain ⟨w₁, hle₁, h₁⟩ := ih
      obtain ⟨w₂, hle₂, h₂⟩ := step h₁ hstep
      exact ⟨w₂, hle₁.trans hle₂, h₂⟩

end Steps

/-! ### Recursive functions -/

/-- What a run ends with: its store is that of a later world, where its
value, if it has one, is a datum. -/
theorem Reaches.outcome {c : Configuration} {result : EStateM.Result Fault Machine Value}
    (h : D.Reaches w (c.finish .value result)) :
    ∃ w', w ≤ w' ∧ D.store w' = (outcome result).store ∧ D.Reads w' c.read ∧
      ∀ v m, result = .ok v m → D.Holds w' .datum v := by
  obtain ⟨w', hle, hobeys⟩ := h
  cases result with
  | ok v m =>
      refine ⟨w', hle, hobeys.store, hobeys.read, fun v' m' hv => ?_⟩
      cases hv
      exact hobeys.control
  | error f m => exact ⟨w', hle, hobeys.store, hobeys.read, by rintro v m ⟨⟩⟩

/-- A run with nothing left to do afterwards starts in order. -/
theorem obeys_rest {m : Machine} {es : List Value} (hstore : D.store w = m.store)
    (hread : D.Reads w es) {control : Control} (hcontrol : D.FitsControl w control) :
    D.Obeys w ((Configuration.rest m es).goto control) :=
  ⟨hstore, hcontrol, fun _ ht => absurd ht List.not_mem_nil, hread⟩

variable {m : Machine} {es : List Value} {env : Ref}

/-- Evaluation keeps the discipline, whether it succeeds or fails. -/
theorem evaluate (hstore : D.store w = m.store) (hread : D.Reads w es) (henv : D.Visible w env)
    {expr : Value} (hexpr : D.Holds w .expression expr) (depth : Nat) :
    ∃ w', w ≤ w' ∧ D.store w' = (outcome (evaluate depth env expr m)).store ∧ D.Reads w' es ∧
      ∀ v m', MiniScheme.evaluate depth env expr m = .ok v m' → D.Holds w' .datum v := by
  have hobeys : D.Obeys w ((Configuration.rest m es).goto (.evaluate depth env expr)) :=
    obeys_rest hstore hread ⟨henv, hexpr⟩
  exact (leads hobeys (Configuration.leads_evaluate depth _ env expr)).outcome

/-- Application keeps the discipline, whether it succeeds or fails. -/
theorem apply (hstore : D.store w = m.store) (hread : D.Reads w es) {fn : Value}
    {args : List Value} (hfn : D.Holds w .datum fn) (hargs : ∀ v ∈ args, D.Holds w .datum v)
    (depth : Nat) :
    ∃ w', w ≤ w' ∧ D.store w' = (outcome (apply depth fn args m)).store ∧ D.Reads w' es ∧
      ∀ v m', MiniScheme.apply depth fn args m = .ok v m' → D.Holds w' .datum v := by
  have hobeys : D.Obeys w ((Configuration.rest m es).goto (.apply depth fn args)) :=
    obeys_rest hstore hread ⟨hfn, hargs⟩
  exact (leads hobeys (Configuration.leads_apply _ depth fn args)).outcome

/-- A program keeps the discipline, whether it succeeds or fails. -/
theorem run (hstore : D.store w = m.store) (hread : D.Reads w es) (henv : D.Visible w env)
    (depth : Nat) (source : String) :
    ∃ w', w ≤ w' ∧ D.store w' = (outcome (run depth env source m)).store ∧
      ∀ v m', MiniScheme.run depth env source m = .ok v m' → D.Holds w' .datum v := by
  obtain ⟨read, hleads⟩ := Configuration.leads_run (.rest m es) depth env source
  have hobeys : D.Obeys w ((Configuration.rest m es).begin depth env source) :=
    obeys_rest hstore hread ⟨henv, D.atom trivial, fun _ => D.admits_read⟩
  obtain ⟨w', hle, hstore', -, hvalue⟩ := (leads hobeys hleads).outcome
  exact ⟨w', hle, hstore', hvalue⟩

end Discipline

end MiniScheme
