import MiniScheme.Proofs.CodeSeparation
import MiniScheme.Proofs.Mirrors
import MiniScheme.Proofs.Pieces

/-!
# `MiniScheme.Proofs.TreeAgreement`: evaluating pairs and running trees agree

`MiniScheme.Proofs.SyntaxTree` defines an interpreter that analyses an
expression once and then runs its tree. This file shows that it does what
the evaluator does, although that looks at the pairs of an expression anew
every time.

`agrees_evaluate` goes through both interpreters, by induction on the
nesting: an action, a special form, a call on one side for its counterpart on
the other. Between the analysis of an expression and its evaluation anything
may have happened, but expressions keep their trees (`CodeWorld.analyse_kept`).

`tree_conversation_eq` is the statement about source texts, from a new global
frame on.
-/

set_option autoImplicit false

namespace MiniScheme

open CodeWorld (discipline)

/-! ### Actions -/

/-- The value may be that of an expression. -/
abbrev CodeWorld.IsDatum (w : CodeWorld) (v : Value) : Prop := w.Plays .datum v

section Actions

variable {w : CodeWorld} {depth : Nat} {env : Ref}

theorem agrees_lookup (name : String) :
    Agrees w (lookup env name) (lift (lookup env name)) CodeWorld.IsDatum := by
  refine .lift_keeps (Blind.both.lookup env name).1 (keeps_lookup env name)
    (fun _ _ _ => .lookup env name) fun m v k hstore hv => ?_
  have hlookup := (lookup_eq_ok hv).1
  rw [← hstore] at hlookup
  exact discipline.lookup hlookup trivial

theorem agrees_assign (name : String) {v : Value} (hv : w.IsDatum v) :
    Agrees w (assign env name v) (lift (assign env name v)) CodeWorld.IsDatum := by
  refine .lift (Blind.both.assign env name v).1 (fun _ _ _ => .assign env name v) fun m t hm => ?_
  rcases assign_run env name v m with ⟨r, hlocate, k, hok, hstore⟩ | ⟨-, hfail⟩
  · rw [← hm.store] at hlocate
    obtain ⟨w', hnext, hw'⟩ := discipline.assign hlocate trivial hv
    rw [hok]
    refine ⟨w', hnext, ?_, ?_, ?_⟩
    · show w'.store = k.store
      rw [hstore, ← hm.store]
      exact hw'
    · show m.store.SameProcedures k.store
      rw [hstore]
      exact ⟨rfl, rfl⟩
    · rintro a k ⟨⟩
      exact discipline.holds_mono hnext.1 hv
  · rw [hfail]
    exact ⟨w, .refl w, hm.store, ⟨rfl, rfl⟩, by rintro a k ⟨⟩⟩

/-- Primitives, and what cannot be applied. -/
theorem agrees_applyWith {fn : Value} (hfn : ∀ r, fn ≠ .closure r) {args : List Value}
    (hargs : ∀ v ∈ args, w.IsDatum v) :
    Agrees w (applyWith depth idle fn args) (lift (applyWith depth idle fn args))
      CodeWorld.IsDatum := by
  have hblind : Blind.both.Rel (applyWith depth idle fn args) (applyWith depth idle fn args) :=
    Blind.both.applyWith (Nat.le_refl depth) hfn args
  refine .lift hblind.1 (fun m t hm => .applyWith hfn args hm.primitives) fun m t hm => ?_
  have hclosure : ∀ r k, fn = .closure r → m.store.closures[r]? ≠ some k :=
    fun r _ hr => absurd hr (hfn r)
  cases hx : applyWith depth idle fn args m with
  | ok v k =>
      have heffect := applyWith_eq_ok hclosure hx
      have hsame := Store.SameProcedures.effect heffect
      rw [← hm.store] at heffect
      obtain ⟨w', hnext, hstore, hv⟩ := discipline.effect heffect hargs
      refine ⟨w', hnext, hstore, hsame, ?_⟩
      rintro a k ⟨⟩
      exact hv
  | error f k =>
      have hstore := applyWith_eq_error hclosure hx
      refine ⟨w, .refl w, hm.store.trans hstore.symm, ?_, by rintro a k ⟨⟩⟩
      show m.store.SameProcedures k.store
      rw [hstore]
      exact ⟨rfl, rfl⟩

theorem sameProcedures_enterClosure (fn : Value) (k : Closure) (args : List Value) (m : Machine) :
    m.store.SameProcedures (outcome (enterClosure depth fn k args m)).store := by
  rcases enterClosure_run depth fn k args m with ⟨f, m', hfail, hstore⟩ |
    ⟨rest, bindings, -, -, hstore, -⟩
  · rw [hfail]
    show m.store.SameProcedures m'.store
    rw [hstore]
    exact ⟨rfl, rfl⟩
  · rw [hstore]
    obtain ⟨hclosures, hprimitives⟩ := Store.SameProcedures.list m.store rest .nil
    exact ⟨hclosures, hprimitives⟩

theorem agrees_enterClosure {r : Ref} {k : Closure} (hk : w.store.closures[r]? = some k)
    (fn : Value) {args : List Value} (hargs : ∀ v ∈ args, w.IsDatum v) :
    Agrees w (enterClosure depth fn k args) (lift (enterClosure depth fn k args))
      fun _ _ => True := by
  obtain ⟨items, last, hspine⟩ := CodeWorld.exists_spine (w.closures r k hk).1 (by decide)
  refine .lift (Blind.both.enterClosure (Nat.le_refl depth) fn k args).1 (fun m t hm => ?_)
    fun m t hm => ?_
  · rw [hm.store] at hspine
    exact .enterClosure hspine
  · obtain ⟨w', hnext, hstore, -⟩ :=
      discipline.next_enterClosure depth fn hm.store (trivial : discipline.Visible w k.frame) hargs
    exact ⟨w', hnext, hstore, sameProcedures_enterClosure fn k args m, fun _ _ _ => trivial⟩

theorem makeClosure_withoutBodies (formals body : Value) (m : Machine) :
    makeClosure depth env formals .nil m.withoutBodies
      = onMachine Machine.withoutBodies (makeClosure depth env formals body m) := by
  have hrest (v : Value) : Blind (note (fun s => do
      let shown ← s.display depth formals
      .ok (.closureMade shown env)) >>= fun _ => pure v) :=
    (Blind.note (.displayEvent (Nat.le_refl depth) formals
      fun shown => .closureMade shown env)).bind fun _ _ => rfl
  have hmade := m.store.newClosure_withoutBodies formals body env
  unfold makeClosure
  rw [bind_run, bind_run]
  show (note _ >>= fun _ => pure (m.store.withoutBodies.newClosure ⟨formals, .nil, env⟩).1)
    (Machine.mk (m.store.withoutBodies.newClosure ⟨formals, .nil, env⟩).2 m.journal) = _
  rw [hmade]
  exact hrest _ ⟨(m.store.newClosure ⟨formals, body, env⟩).2, m.journal⟩

/-- A closure is made, with a body or with the trees of it. -/
theorem agrees_makeClosure {formals body : Value} {items : List Value}
    (hformals : w.Plays .inert formals) (hbody : w.Plays .operands body)
    (hspine : w.store.Spine body items .nil) :
    Agrees w (makeClosure depth env formals body)
      (makeTreeClosure depth env formals (items.map w.store.analyse)) CodeWorld.IsDatum := by
  intro m t hm
  obtain ⟨w', hnext, hstore, hdatum⟩ := discipline.newClosure (k := ⟨formals, body, env⟩)
    hformals ⟨hbody, items, hspine⟩ (trivial : discipline.Visible w env)
  obtain ⟨es, hread⟩ := hm.reads
  obtain ⟨hrun, hvalue⟩ := makeClosure_run depth env formals body m
  have htree : makeTreeClosure depth env formals (items.map w.store.analyse) t
      = onMachine (fun m => ⟨m, t.bodies.push (items.map w.store.analyse)⟩)
          (onMachine Machine.withoutBodies (makeClosure depth env formals body m)) := by
    show lift (makeClosure depth env formals .nil)
      { t with bodies := t.bodies.push (items.map w.store.analyse) } = _
    rw [lift, hm.machine, makeClosure_withoutBodies formals body m]
  -- The note may fail, and then the closure has been made all the same.
  have hmirrors {k : Machine} (hk : k.store = (m.store.newClosure ⟨formals, body, env⟩).2) :
      Mirrors w' k ⟨k.withoutBodies, t.bodies.push (items.map w.store.analyse)⟩ := by
    have hw' : w'.store = k.store := by
      rw [hk, ← hm.store]
      exact hstore
    refine ⟨hw', rfl, ?_, ?_, es, hnext.2 es hread⟩
    · have htrees : items.map w.store.analyse = k.store.analyseBody body := by
        rw [← hw', CodeWorld.analyseBody_kept hnext.1 hbody, Store.analyseBody_eq hspine]
      show t.bodies.push _ = _
      rw [htrees, hm.map_bodies hnext.1 hw',
        show k.store.closures = m.store.closures.push ⟨formals, body, env⟩ by rw [hk]; rfl,
        Array.map_push]
    · rw [hk]
      exact hm.primitives
  rw [htree]
  cases hx : makeClosure depth env formals body m with
  | ok v k =>
      rw [hx] at hrun
      refine .value hnext.1 (hmirrors hrun) ?_
      rw [hvalue v k hx, ← hm.store]
      exact hdatum
  | error f k =>
      rw [hx] at hrun
      exact .fault hnext.1 (hmirrors hrun) (FailsOrdinarily.makeClosure env formals body f k hx)

end Actions

/-! ### Expressions -/

/-- At this depth, expressions are evaluated as their trees are run. -/
def AgreesAt (depth : Nat) : Prop :=
  ∀ (w : CodeWorld) (env : Ref) (expr : Value), w.Plays .expression expr →
    Agrees w (evaluate depth env expr) (execute depth env (w.store.analyse expr))
      CodeWorld.IsDatum

section Expressions

variable {depth : Nat} {w : CodeWorld} {env : Ref}

theorem agrees_items (h : AgreesAt depth) (items : List Value) :
    ∀ {w : CodeWorld} {result : Value}, (∀ e ∈ items, w.Plays .expression e) →
      w.IsDatum result →
      Agrees w (evalItems (evaluate depth) env result items)
        (executeItems (execute depth) env result (items.map w.store.analyse))
        CodeWorld.IsDatum := by
  induction items with
  | nil => intro w result _ hresult; exact .pure hresult
  | cons e items ih =>
      intro w result hitems _
      have hrest : ∀ x ∈ items, w.Plays .expression x :=
        fun x hx => hitems x (List.mem_cons_of_mem e hx)
      refine .bind (h w env e (hitems e List.mem_cons_self)) fun w' v hle hv => ?_
      -- The trees were made before the first expression was evaluated.
      rw [← CodeWorld.map_analyse_kept hle hrest]
      exact ih (fun x hx => (hrest x hx).grown hle) hv

theorem agrees_operands (h : AgreesAt depth) (operands : List Value) :
    ∀ {w : CodeWorld} {done : List Value}, (∀ e ∈ operands, w.Plays .expression e) →
      (∀ v ∈ done, w.IsDatum v) →
      Agrees w (evalOperands (evaluate depth) env done operands)
        (executeOperands (execute depth) env done (operands.map w.store.analyse))
        fun w' args => ∀ v ∈ args, w'.IsDatum v := by
  induction operands with
  | nil => intro w done _ hdone; exact .pure fun v hv => hdone v (List.mem_reverse.mp hv)
  | cons e operands ih =>
      intro w done hoperands hdone
      have hrest : ∀ x ∈ operands, w.Plays .expression x :=
        fun x hx => hoperands x (List.mem_cons_of_mem e hx)
      refine .bind (h w env e (hoperands e List.mem_cons_self)) fun w' v hle hv => ?_
      rw [← CodeWorld.map_analyse_kept hle hrest]
      refine ih (fun x hx => (hrest x hx).grown hle) fun x hx => ?_
      rcases List.mem_cons.mp hx with rfl | hx
      · exact hv
      · exact (hdone x hx).grown hle

/-- A walk along a body and a row of its trees. -/
theorem agrees_sequence (h : AgreesAt depth) {body : Value} {items : List Value}
    (hbody : w.Plays .operands body) (hspine : w.store.Spine body items .nil) :
    Agrees w (evalSequence (evaluate depth) env body)
      (executeItems (execute depth) env .emptySequence (items.map w.store.analyse))
      CodeWorld.IsDatum := by
  refine .congr (fun m t hm => ?_)
    (agrees_items h items (discipline.expressions hspine hbody) (discipline.atom trivial))
  obtain ⟨es, hread⟩ := hm.reads
  exact evalSequence_eq_evalItems depth env hm.store hread hbody hspine

theorem applyTree_absent {ex : TreeEvaluator} {r : Ref} {t : TreeMachine}
    (h : t.machine.store.closures[r]? = none) (args : List Value) :
    applyTree depth ex (.closure r) args t
      = lift (failShowing depth .notCallable (.closure r)) t := by
  show ((get : TreeEval TreeMachine) >>= _) t = _
  rw [tree_get_bind_run]
  simp only [h]

theorem applyTree_closure {ex : TreeEvaluator} {r : Ref} {k : Closure} {body : List Tree}
    {t : TreeMachine} (hk : t.machine.store.closures[r]? = some k)
    (hbody : t.bodies[r]? = some body) (args : List Value) :
    applyTree depth ex (.closure r) args t
      = (lift (enterClosure depth (.closure r) k args) >>= fun env =>
          executeItems ex env .emptySequence body) t := by
  show ((get : TreeEval TreeMachine) >>= _) t = _
  rw [tree_get_bind_run]
  simp only [hk, hbody]

theorem agrees_applyClosure (h : AgreesAt depth) (r : Ref) {args : List Value}
    (hargs : ∀ v ∈ args, w.IsDatum v) :
    Agrees w (applyWith depth (evaluate depth) (.closure r) args)
      (applyTree depth (execute depth) (.closure r) args) CodeWorld.IsDatum := by
  intro m t hm
  have hclosure : t.machine.store.closures[r]?
      = (m.store.closures[r]?).map fun k => { k with body := .nil } := by
    rw [hm.machine]
    exact Array.getElem?_map ..
  have htrees : t.bodies[r]?
      = (m.store.closures[r]?).map fun k => m.store.analyseBody k.body := by
    rw [hm.bodies, Array.getElem?_map]
  rw [Configuration.applyWith_closure]
  cases hk : m.store.closures[r]? with
  | none =>
      have hfail : Agrees w (failShowing depth .notCallable (.closure r))
          (lift (failShowing depth .notCallable (.closure r))) CodeWorld.IsDatum :=
        .failShowing _ fun _ => trivial
      rw [hk] at hclosure
      rw [applyTree_absent hclosure]
      exact hfail m t hm
  | some k =>
      rw [hk] at hclosure htrees
      rw [applyTree_closure hclosure htrees]
      rw [← hm.store] at hk
      obtain ⟨-, hbody, items, hspine⟩ := w.closures r k hk
      dsimp only
      rw [applyClosure_eq, ← hm.store, Store.analyseBody_eq hspine]
      refine Agrees.bind (agrees_enterClosure hk _ hargs) (fun w' env hle _ => ?_) m t hm
      -- The trees were made when the closure was, so they are those of the body now.
      rw [← CodeWorld.map_analyse_kept hle (discipline.expressions hspine hbody)]
      exact agrees_sequence h (CodeWorld.Plays.grown hle hbody)
        (CodeWorld.spine_kept hle.code hspine hbody)

theorem agrees_apply (h : AgreesAt depth) (fn : Value) {args : List Value}
    (hargs : ∀ v ∈ args, w.IsDatum v) :
    Agrees w (applyWith depth (evaluate depth) fn args) (applyTree depth (execute depth) fn args)
      CodeWorld.IsDatum := by
  by_cases hfn : ∃ r, fn = .closure r
  · obtain ⟨r, rfl⟩ := hfn
    exact agrees_applyClosure h r hargs
  · have hne : ∀ r, fn ≠ .closure r := fun r hr => hfn ⟨r, hr⟩
    have hcells : applyWith depth (evaluate depth) fn args = applyWith depth idle fn args := by
      cases fn with
      | closure r => exact absurd rfl (hne r)
      | _ => rfl
    have htrees :
        applyTree depth (execute depth) fn args = lift (applyWith depth idle fn args) := by
      cases fn with
      | closure r => exact absurd rfl (hne r)
      | _ => rfl
    rw [hcells, htrees]
    exact agrees_applyWith hne hargs

/-! ### Special forms -/

theorem spine?_of_mirrors {m : Machine} {t : TreeMachine} (hm : Mirrors w m t)
    {tail last : Value} {items : List Value} (hspine : w.store.Spine tail items last) :
    m.store.spine? tail = some (items, last) := by
  rw [← hm.store]
  exact Store.spine?_eq_some_iff.mpr hspine

/-- The operands of a form are at hand if they are a proper list. -/
theorem agrees_formOperands {form : Form} {tail : Value} {items : List Value}
    (hspine : w.store.Spine tail items .nil) {f : List Value → Eval Value} {y : TreeEval Value}
    (h : Agrees w (f items) y CodeWorld.IsDatum) :
    Agrees w (formOperands form tail >>= f) y CodeWorld.IsDatum :=
  .congr (fun _ _ hm =>
    bind_run_ok ((formOperands_run form (spine?_of_mirrors hm hspine)).trans (if_pos rfl))) h

variable {tail : Value} {items : List Value}

theorem agrees_quotation (hspine : w.store.Spine tail items .nil)
    (htail : w.Plays .quotation tail) :
    Agrees w (evalForm depth (evaluate depth) env .quote tail)
      (executeWith depth (execute depth) env (.ofForm w.store.analyse .quote items))
      CodeWorld.IsDatum := by
  refine agrees_formOperands hspine ?_
  rcases items with - | ⟨d, - | ⟨e, more⟩⟩
  · exact .fault (.error trivial)
  · exact .pure (discipline.quotation hspine htail)
  · exact .fault (.error trivial)

theorem agrees_conditional (h : AgreesAt depth) (hspine : w.store.Spine tail items .nil)
    (htail : w.Plays .operands tail) :
    Agrees w (evalForm depth (evaluate depth) env .conditional tail)
      (executeWith depth (execute depth) env (.ofForm w.store.analyse .conditional items))
      CodeWorld.IsDatum := by
  have hparts := discipline.expressions hspine htail
  -- A branch is run after the test, with the tree from before it.
  have hbranch {e : Value} (he : e ∈ items) {w' : CodeWorld} (hle : w ≤ w') :
      Agrees w' (evaluate depth env e) (execute depth env (w.store.analyse e))
        CodeWorld.IsDatum := by
    rw [← CodeWorld.analyse_kept hle (hparts e he)]
    exact h w' env e (CodeWorld.Plays.grown hle (hparts e he))
  refine agrees_formOperands hspine ?_
  rcases items with - | ⟨test, - | ⟨consequent, - | ⟨alternative, - | ⟨extra, more⟩⟩⟩⟩
  · exact .fault (.error trivial)
  · exact .fault (.error trivial)
  · refine .bind (hbranch (by simp) (le_refl w)) fun w' v hle _ => ?_
    split
    · exact hbranch (by simp) hle
    · exact .pure (discipline.atom trivial)
  · refine .bind (hbranch (by simp) (le_refl w)) fun w' v hle _ => ?_
    split
    · exact hbranch (by simp) hle
    · exact hbranch (by simp) hle
  · exact .fault (.error trivial)

theorem agrees_assignment (h : AgreesAt depth) (hspine : w.store.Spine tail items .nil)
    (htail : w.Plays .operands tail) :
    Agrees w (evalForm depth (evaluate depth) env .assignment tail)
      (executeWith depth (execute depth) env (.ofForm w.store.analyse .assignment items))
      CodeWorld.IsDatum := by
  have hparts := discipline.expressions hspine htail
  refine agrees_formOperands hspine ?_
  rcases items with - | ⟨target, - | ⟨e, - | ⟨extra, more⟩⟩⟩
  · exact .fault (.error trivial)
  · cases target <;> exact .fault (.error trivial)
  · cases target with
    | symbol name =>
        exact .bind (h w env e (hparts e (by simp))) fun w' v _ hv => agrees_assign name hv
    | _ => exact .failShowing _ fun _ => trivial
  · cases target <;> exact .fault (.error trivial)

theorem agrees_abstraction (hspine : w.store.Spine tail items .nil)
    (htail : w.Plays .abstraction tail) :
    Agrees w (evalForm depth (evaluate depth) env .lambda tail)
      (executeWith depth (execute depth) env (.ofForm w.store.analyse .lambda items))
      CodeWorld.IsDatum := by
  refine agrees_formOperands hspine ?_
  cases hspine with
  | last => exact .fault (.error trivial)
  | @link _ _ c body cell rest =>
      -- The evaluator takes parameters and body from the pair, not from the operands.
      obtain ⟨r, rfl, hr⟩ := Store.cell?_eq_some cell
      refine .congr (fun m t hm => ?_)
        (agrees_makeClosure (discipline.car hr htail) (discipline.cdr hr htail) rest)
      show ((inquire fun s => s.cell? (.pair r)) >>= _) m = _
      rw [inquire_bind_run, ← hm.store, cell]

/-- A special form and its tree. -/
theorem agrees_form (h : AgreesAt depth) {form : Form} (htail : w.Plays form.operandsRole tail) :
    Agrees w (evalForm depth (evaluate depth) env form tail)
      (executeWith depth (execute depth) env
        (w.store.analyseForm w.store.analyse form tail)) CodeWorld.IsDatum := by
  have hrole : form.operandsRole ≠ .datum := by cases form <;> decide
  obtain ⟨items, last, hspine⟩ := CodeWorld.exists_spine htail hrole
  rw [Store.analyseForm, Store.spine?_eq_some_iff.mpr hspine]
  dsimp only
  by_cases hlast : last = .nil
  · subst hlast
    rw [if_neg (by simp)]
    cases form with
    | quote => exact agrees_quotation hspine htail
    | conditional => exact agrees_conditional h hspine htail
    | begin => exact agrees_formOperands hspine (agrees_sequence h htail hspine)
    | assignment => exact agrees_assignment h hspine htail
    | lambda => exact agrees_abstraction hspine htail
  · rw [if_pos hlast]
    have hfail : Agrees w (throw (.improperForm form.name))
        (lift (throw (.improperForm form.name))) CodeWorld.IsDatum := .fault (.error trivial)
    refine .congr (fun m t hm => ?_) hfail
    exact bind_run_error
      ((formOperands_run form (spine?_of_mirrors hm hspine)).trans (if_neg hlast))

/-! ### Calls -/

/-- A call and its tree: the head comes first, and then the check of the
operands. -/
theorem agrees_call (h : AgreesAt depth) {expr head : Value} (hhead : w.Plays .expression head)
    (htail : w.Plays .operands tail) :
    Agrees w (evalCall depth (evaluate depth) env expr head tail)
      (executeWith depth (execute depth) env
        (w.store.analyseCall w.store.analyse expr head tail)) CodeWorld.IsDatum := by
  obtain ⟨items, last, hspine⟩ := CodeWorld.exists_spine htail (by decide)
  have hwalk {w' : CodeWorld} (hle : w ≤ w') {m : Machine} {t : TreeMachine}
      (hm : Mirrors w' m t) : spine tail m = .ok (items, last) m :=
    spine_run (spine?_of_mirrors hm (CodeWorld.spine_kept hle.code hspine htail))
  have hparts := discipline.expressions hspine htail
  rw [Store.analyseCall, Store.spine?_eq_some_iff.mpr hspine]
  dsimp only
  by_cases hlast : last = .nil
  · subst hlast
    rw [if_neg (by simp)]
    refine .bind (h w env head hhead) fun w' fn hle hfn => ?_
    -- Whatever the head did, the operands are found as they were.
    refine .congr (fun m t hm => bind_run_ok (hwalk hle hm)) ?_
    rw [← CodeWorld.map_analyse_kept hle hparts]
    refine .bind (agrees_operands h items (fun e he => CodeWorld.Plays.grown hle (hparts e he))
      (by simp)) fun w'' args _ hargs => agrees_apply h fn hargs
  · rw [if_pos hlast]
    refine .bind (h w env head hhead) fun w' fn hle _ => ?_
    have hfail : Agrees w' (failShowing depth .improperCall expr)
        (lift (failShowing depth .improperCall expr)) CodeWorld.IsDatum :=
        .failShowing _ fun _ => trivial
    refine .congr (fun m t hm => ?_) hfail
    rw [bind_run_ok (hwalk hle hm)]
    exact congrFun (if_pos hlast) m

end Expressions

/-- Expressions are evaluated as their trees are run. -/
theorem agrees_evaluate (depth : Nat) : AgreesAt depth := by
  -- On the nesting, for all worlds: bodies of closures are run in later ones.
  induction depth with
  | zero => exact fun w env expr _ => .throw .tooDeep
  | succ depth ih =>
      intro w env expr hexpr
      rw [CodeWorld.analyse_eq hexpr]
      show Agrees w (evaluateWith depth (evaluate depth) env expr)
        (executeWith depth (execute depth) env _) _
      cases expr with
      | symbol name => exact agrees_lookup name
      | number | text | boolean | vector =>
          exact .pure (discipline.constant (by simp) hexpr)
      | pair r =>
          obtain ⟨c, hcell⟩ : ∃ c, w.store.cells[r]? = some c :=
            ⟨_, Array.getElem?_eq_getElem (hexpr r rfl).1⟩
          have hcar := discipline.car hcell hexpr
          have hcdr := discipline.cdr hcell hexpr
          have hpair {m : Machine} {t : TreeMachine} (hm : Mirrors w m t) :
              m.store.cell? (.pair r) = some c := by
            rw [← hm.store]
            exact hcell
          simp only [Store.analyseWith, Store.cell?, hcell]
          -- The head decides which role the operands have.
          cases hform : Form.ofHead? c.car with
          | some form =>
              simp only [Role.onCdr, hform] at hcdr
              refine .congr (fun m t hm => ?_) (agrees_form ih hcdr)
              rw [evaluateWith_pair (hpair hm), hform]
          | none =>
              simp only [Role.onCdr, hform] at hcdr
              refine .congr (fun m t hm => ?_) (agrees_call ih hcar hcdr)
              rw [evaluateWith_pair (hpair hm), hform]
      | _ => exact .refuse _

/-! ### Source texts -/

section Programs

variable (depth shown : Nat) (env : Ref) {w : CodeWorld} {m : Machine} {t : TreeMachine}

/-- A datum is loaded on both machines, and then evaluated on the one and
analysed and run on the other. -/
theorem endAlike_datum (hm : Mirrors w m t) (d : Datum) :
    EndAlike w CodeWorld.IsDatum (evalDatum depth env d m) (executeDatum depth env d t) := by
  obtain ⟨es, hread⟩ := hm.reads
  obtain ⟨w', hle, hstore, hexpr, hread'⟩ := discipline.load (d := d) trivial hread
  rw [show discipline.store w = m.store from hm.store] at hstore hexpr hread'
  have hextends := Store.extends_load d m.store
  have hloaded : Mirrors w' ⟨(m.store.load d).2, m.journal⟩
      { t with machine := Machine.withoutBodies ⟨(m.store.load d).2, m.journal⟩ } :=
    hm.next hle hstore ⟨hextends.closures, hextends.primitives⟩ ⟨_, hread'⟩
  have hload : lift (load d) t = .ok (m.store.load d).1
      { t with machine := Machine.withoutBodies ⟨(m.store.load d).2, m.journal⟩ } := by
    have hblind : Blind (load d) := .change (Store.load_withoutBodies d)
    rw [lift, hm.machine, hblind m]
    rfl
  have htree : executeDatum depth env d t
      = execute depth env (w'.store.analyse (m.store.load d).1)
          { t with machine := Machine.withoutBodies ⟨(m.store.load d).2, m.journal⟩ } := by
    rw [executeDatum, tree_bind_run, hload]
    show execute depth env ((m.store.load d).2.withoutBodies.analyse _) _ = _
    rw [Store.analyse_withoutBodies, ← hstore]
    rfl
  rw [htree]
  exact (agrees_evaluate depth w' env _ hexpr _ _ hloaded).earlier hle

theorem Mirrors.write_eq (hm : Mirrors w m t) (v : Value) :
    t.machine.store.write shown v = m.store.write shown v := by
  rw [hm.machine]
  exact Store.write_withoutBodies m.store shown v

theorem Mirrors.lookup?_eq (hm : Mirrors w m t) (env : Ref) (name : String) :
    t.machine.store.lookup? env name = m.store.lookup? env name := by
  rw [hm.machine]
  exact Store.lookup?_withoutBodies m.store env name

/-- Two rows of replies are the same, and what they leave is related. -/
def SameReplies {α : Type} (x : α × Machine) (y : α × TreeMachine) : Prop :=
  x.1 = y.1 ∧ ∃ w, Mirrors w x.2 y.2

theorem sameReplies_replies (fault : Option Fault) (data : List Datum) :
    ∀ {w : CodeWorld} {m : Machine} {t : TreeMachine}, Mirrors w m t →
      SameReplies
        (replies (evalDatum depth env) (fun m v => m.store.write shown v) fault data m)
        (replies (executeDatum depth env) (fun t v => t.machine.store.write shown v) fault data
          t) := by
  induction data with
  | nil => intro w m t hm; exact ⟨rfl, w, hm⟩
  | cons d data ih =>
      intro w m t hm
      have hends := endAlike_datum depth env hm d
      rw [replies, replies]
      generalize evalDatum depth env d m = first at hends
      generalize executeDatum depth env d t = second at hends
      cases hends with
      | value _ mirrors _ =>
          obtain ⟨hreplies, hmirrors⟩ := ih mirrors
          refine ⟨?_, hmirrors⟩
          dsimp only
          rw [hreplies, Mirrors.write_eq shown mirrors]
      | fault _ mirrors _ => exact ⟨rfl, _, mirrors⟩

theorem sameReplies_conversation (sources : List String) :
    ∀ {w : CodeWorld} {m : Machine} {t : TreeMachine}, Mirrors w m t →
      SameReplies (cellConversation depth shown env sources m)
        (treeConversation depth shown env sources t) := by
  induction sources with
  | nil => intro w m t hm; exact ⟨rfl, w, hm⟩
  | cons source sources ih =>
      intro w m t hm
      obtain ⟨hfirst, w', hmirrors⟩ :=
        sameReplies_replies depth shown env (read depth source).2 (read depth source).1 hm
      obtain ⟨hothers, hlast⟩ := ih hmirrors
      refine ⟨?_, hlast⟩
      exact congrArg₂ List.cons hfirst hothers

theorem evalData_cons (d : Datum) (data : List Datum) (result : Value) :
    evalData depth env result (d :: data)
      = evalDatum depth env d >>= fun v => evalData depth env v data := by
  simp only [evalData, evalDatum, bind_assoc]

/-- What replies leave is what running the data leaves. -/
theorem replies_snd (written : Machine → Value → Except Fault String) (fault : Option Fault)
    (data : List Datum) : ∀ (m : Machine) (result : Value),
      (replies (evalDatum depth env) written fault data m).2
        = outcome ((evalData depth env result data >>= conclude fault) m) := by
  induction data with
  | nil => intro m result; cases fault <;> rfl
  | cons d data ih =>
      intro m result
      rw [replies, evalData_cons, bind_assoc, bind_run]
      cases evalDatum depth env d m with
      | ok v k => exact ih k v
      | error f k => rfl

theorem cellConversation_snd (sources : List String) : ∀ m : Machine,
    (cellConversation depth shown env sources m).2
      = sources.foldl (fun m source => outcome (run depth env source m)) m := by
  induction sources with
  | nil => intro m; rfl
  | cons source sources ih =>
      intro m
      have hrun : (replies (evalDatum depth env) (fun m v => m.store.write shown v)
          (read depth source).2 (read depth source).1 m).2 = outcome (run depth env source m) := by
        rw [replies_snd depth env _ _ _ m .emptySequence,
          run_eq (show read depth source = ((read depth source).1, (read depth source).2) from rfl)]
      rw [List.foldl_cons, ← hrun]
      exact ih _

end Programs

/-- The machine with a new global frame, and nothing else. -/
def globalMachine (placeholders : List String) (journal : Option (List Event)) : Machine :=
  outcome (makeGlobal standardPrimitives placeholders ⟨{}, journal⟩)

theorem isDeclared_globalMachine (placeholders : List String) (journal : Option (List Event)) :
    ∀ p ∈ (globalMachine placeholders journal).store.primitives, p.IsDeclared := by
  obtain ⟨m, hrun, -, hprimitives⟩ :=
    makeGlobal_spec standardPrimitives placeholders ⟨{}, journal⟩
  intro p hp
  rw [globalMachine, hrun] at hp
  rcases hprimitives p hp with hnone | hp
  · simp at hnone
  · exact isDeclared_of_mem_standardPrimitives hp

theorem exists_mirrors_globalMachine (placeholders : List String) (journal : Option (List Event)) :
    ∃ w, Mirrors w (globalMachine placeholders journal)
      ⟨globalMachine placeholders journal, #[]⟩ := by
  obtain ⟨w, hobeys⟩ := Configuration.exists_obeys_global standardPrimitives placeholders journal
  obtain ⟨m, hrun, hadded, -⟩ := makeGlobal_spec standardPrimitives placeholders ⟨{}, journal⟩
  have hclosures : (globalMachine placeholders journal).store.closures = #[] := by
    rw [globalMachine, hrun]
    exact hadded.closures
  have hstore : w.store = (globalMachine placeholders journal).store := hobeys.store
  have hdeclared := isDeclared_globalMachine placeholders journal
  generalize globalMachine placeholders journal = m at hclosures hstore hdeclared ⊢
  -- There are no closures yet, so no bodies that could differ.
  refine ⟨w, hstore, ?_, ?_, hdeclared, _, hobeys.read⟩
  · exact (Machine.withoutBodies_of_closures hclosures).symm
  · simp [hclosures]

/-- **Evaluating pairs agrees with running analysed trees.** Let source texts
be given to both interpreters, one after the other, from a new global frame
on.

* The replies are the same: to every expression the same written value or the
  same fault.
* In the end every variable has the same written value.
* The machine that the replies leave is the one that running the texts
  leaves. -/
theorem tree_conversation_eq (placeholders : List String) (journal : Option (List Event))
    (depth shown : Nat) (env : Ref) (sources : List String) :
    let m := globalMachine placeholders journal
    let cells := cellConversation depth shown env sources m
    let trees := treeConversation depth shown env sources ⟨m, #[]⟩
    cells.1 = trees.1 ∧
    (∀ (env : Ref) (name : String) (shown : Nat),
      (cells.2.store.lookup? env name).map (cells.2.store.write shown)
        = (trees.2.machine.store.lookup? env name).map (trees.2.machine.store.write shown)) ∧
    cells.2 = sources.foldl (fun m source => outcome (run depth env source m)) m := by
  obtain ⟨w, hstart⟩ := exists_mirrors_globalMachine placeholders journal
  obtain ⟨hreplies, w', hmirrors⟩ := sameReplies_conversation depth shown env sources hstart
  refine ⟨hreplies, fun env name shown => ?_, cellConversation_snd depth shown env sources _⟩
  rw [hmirrors.lookup?_eq, funext (Mirrors.write_eq shown hmirrors)]

/-- A closure gives the same quoted list at every call, so a change of it
shows. -/
example : (treeConversation 9 9 0
      ["(set! it (lambda x '(1 2))) (set-car! (it) it) (it) (set! 1 2) it"]
      (TreeMachine.mk (globalMachine ["it"] none) #[])).1
    = [[.ok (.ok "#<closure (lambda x)>"), .ok (.ok "(#<closure (lambda x)> 2)"),
      .ok (.ok "(#<closure (lambda x)> 2)"), .error (.assignmentTarget "1")]] := by
  decide +kernel

end MiniScheme
