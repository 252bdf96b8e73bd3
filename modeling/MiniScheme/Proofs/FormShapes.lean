import MiniScheme.Proofs.Printing
import MiniScheme.Proofs.ReadData
import MiniScheme.Proofs.Stepping

/-!
# `MiniScheme.Proofs.FormShapes`: special forms are checked before they run

A special form has operands, which are the elements of the chain behind its
name. What can be wrong with them is looked for in a fixed order: the chain is
no proper list, there are not as many operands as the form takes, the target of
an assignment is no symbol.

`forms_are_checked_first` says that each of these is found before any part of
the form is evaluated. That no part is evaluated is stated as it is, and not
only by its effects: the outcome is the same whatever evaluates the parts
(`RefusedAtOnce`).

A form without these faults has no fault of shape of its own. Each one that it
ends in comes out of a part that it evaluates, and `FailsInside` lists the parts
that a form evaluates, and when. A sequence walks the pairs of its body as they
are at each step, which is `Walk`.
-/

set_option autoImplicit false

namespace MiniScheme

/-! ### Kinds of faults -/

/-- Source text that cannot be read, or an expression of the wrong shape. -/
inductive Fault.IsSyntax : Fault → Prop
  | reading (e : ReadError) : IsSyntax (.reading e)
  | improperCall (shown : String) : IsSyntax (.improperCall shown)
  | improperForm (form : String) : IsSyntax (.improperForm form)
  | assignmentTarget (shown : String) : IsSyntax (.assignmentTarget shown)
  | definitionTarget (shown : String) : IsSyntax (.definitionTarget shown)
  | parameter (shown : String) : IsSyntax (.parameter shown)
  | parameterList (shown : String) : IsSyntax (.parameterList shown)

/-- A wrong count of arguments, values or operands. -/
inductive Fault.IsArity : Fault → Prop
  | intro (context : String) (expected : Option Int) (actual : Option Nat) :
      IsArity (.arity context expected actual)

/-! ### Operands -/

/-- The data of a chain and what it ends in. -/
def Datum.unchain : Datum → List Datum × Datum
  | .pair car cdr => (car :: (unchain cdr).1, (unchain cdr).2)
  | d => ([], d)

/-- The chain of a value has the elements of the datum that it unfolds to. -/
theorem Store.Unfolds.exists_unchained {s : Store} {v : Value} {d : Datum} (h : s.Unfolds v d) :
    ∃ items last, s.Spine v items last ∧ List.Forall₂ s.Unfolds items d.unchain.1 ∧
      s.Unfolds last d.unchain.2 := by
  induction h with
  | number n => exact ⟨[], _, .last rfl, .nil, .number n⟩
  | text tag t => exact ⟨[], _, .last rfl, .nil, .text tag t⟩
  | symbol name => exact ⟨[], _, .last rfl, .nil, .symbol name⟩
  | boolean b => exact ⟨[], _, .last rfl, .nil, .boolean b⟩
  | nil => exact ⟨[], _, .last rfl, .nil, .nil⟩
  | vector items same each => exact ⟨[], _, .last rfl, .nil, .vector items same each⟩
  | pair cell first _ _ ih =>
      obtain ⟨items, last, hspine, hitems, hlast⟩ := ih
      exact ⟨_ :: items, last, .link cell hspine, .cons first hitems, hlast⟩

/-- Only `()` is read as `()`. -/
theorem Store.Unfolds.eq_nil_iff {s : Store} {v : Value} {d : Datum} (h : s.Unfolds v d) :
    v = .nil ↔ d = .nil := by
  cases h <;> simp

/-- Only a symbol is read as that symbol. -/
theorem Store.Unfolds.eq_symbol_iff {s : Store} {v : Value} {d : Datum} (h : s.Unfolds v d)
    (name : String) : v = .symbol name ↔ d = .symbol name := by
  cases h <;> simp

theorem Store.head?_eq_symbol_iff {s : Store} {vs : List Value} {ds : List Datum}
    (h : List.Forall₂ s.Unfolds vs ds) (name : String) :
    vs.head? = some (.symbol name) ↔ ds.head? = some (.symbol name) := by
  cases h with
  | nil => simp
  | cons hv _ => simp [hv.eq_symbol_iff]

theorem Datum.Textual.hasText {d : Datum} (h : Textual d) : d.HasText := by
  induction h with
  | @int n short => exact .number (t := toString n) (by simp [Number.text?, short])
  | real => exact .number rfl
  | text t => exact .text t
  | symbol => exact .symbol _
  | boolean b => exact .boolean b
  | nil => exact .nil
  | pair _ _ ihcar ihcdr => exact .pair ihcar ihcdr
  | vector _ ih => exact .vector ih

theorem Datum.Textual.of_mem_unchain {d e : Datum} (hd : Textual d) (h : e ∈ d.unchain.1) :
    Textual e := by
  induction hd with
  | pair first _ _ ih =>
      rcases List.mem_cons.mp h with rfl | h
      · exact first
      · exact ih h
  | _ => exact absurd h List.not_mem_nil

/-- What has a text can be named in a message, unless it is nested too deeply. -/
theorem Store.display_cases {s : Store} {v : Value} {d : Datum} (hd : d.HasText)
    (h : s.Unfolds v d) (depth : Nat) :
    (∃ shown, s.display depth v = .ok shown) ∨ s.display depth v = .error .tooDeep := by
  obtain ⟨shown, hshown⟩ := exists_display hd h (Nat.le_max_left (d.nesting .alone) depth)
  rcases (s.settles_display (.refl s) (Nat.le_max_right (d.nesting .alone) depth) v).same
    with hdeep | hsame
  · exact .inr hdeep
  · exact .inl ⟨shown, hsame.symm.trans hshown⟩

/-- A complaint about something that has a text is the complaint meant, where
the levels are left for that text. -/
theorem Store.exists_complaint_eq {s : Store} {v : Value} {d : Datum} {depth : Nat}
    (hd : d.HasText) (h : s.Unfolds v d) (hdepth : d.nesting .alone ≤ depth)
    (fault : String → Fault) : ∃ shown, s.complaint depth fault v = fault shown := by
  obtain ⟨shown, hshown⟩ := exists_display hd h hdepth
  exact ⟨shown, by rw [complaint, hshown]⟩

/-- Otherwise nesting is the fault. -/
theorem Store.complaint_cases {s : Store} {v : Value} {d : Datum} (hd : d.HasText)
    (h : s.Unfolds v d) (depth : Nat) (fault : String → Fault) :
    (∃ shown, s.complaint depth fault v = fault shown) ∨
      s.complaint depth fault v = .tooDeep := by
  rcases display_cases hd h depth with ⟨shown, hshown⟩ | hdeep
  · exact .inl ⟨shown, by rw [complaint, hshown]⟩
  · exact .inr (by rw [complaint, hdeep])

/-! ### What a form evaluates -/

/-- How many operands a form takes. -/
def Form.Takes : Form → Nat → Prop
  | .quote, n => n = 1
  | .conditional, n => n = 2 ∨ n = 3
  | .begin, _ => True
  | .assignment, n => n = 2
  | .lambda, n => 1 ≤ n

instance (form : Form) (n : Nat) : Decidable (form.Takes n) :=
  match form with
  | .quote | .assignment => inferInstanceAs (Decidable (n = _))
  | .conditional => inferInstanceAs (Decidable (n = 2 ∨ n = 3))
  | .begin => inferInstanceAs (Decidable True)
  | .lambda => inferInstanceAs (Decidable (1 ≤ n))

/-- The expression fails in such a way and leaves the machine as it was, and it
does so whatever evaluates its parts. No part is evaluated, then. -/
def RefusedAtOnce (kind : Fault → Prop) (depth : Nat) (env : Ref) (expr : Value) (m : Machine) :
    Prop :=
  ∃ e, kind e ∧ evaluate (depth + 1) env expr m = .error e m ∧
    ∀ ev, evaluateWith depth ev env expr m = .error e m

/-- Walking a body from one pair on leads to another one, with everything
between evaluated. Each step goes on from the pairs as the evaluation left
them. -/
inductive Walk (ev : Evaluator) (env : Ref) : Machine → Value → Machine → Value → Prop
  | here (m : Machine) (body : Value) : Walk ev env m body m body
  | step {m k m' : Machine} {body last v : Value} {c : Cell}
      (cell : m.store.cell? body = some c) (value : ev env c.car m = .ok v k)
      (behind : Walk ev env k (k.store.cdrOf body) m' last) : Walk ev env m body m' last

/-- The fault comes out of a part that the form evaluates. -/
inductive FailsInside (ev : Evaluator) (env : Ref) (m : Machine) (tail : Value) (e : Fault)
    (m' : Machine) : Form → List Value → Prop
  | test {test : Value} {branches : List Value} (fails : ev env test m = .error e m') :
      FailsInside ev env m tail e m' .conditional (test :: branches)
  | consequent {test consequent v : Value} {rest : List Value} {k : Machine}
      (tested : ev env test m = .ok v k) (isTrue : v.isTrue = true)
      (fails : ev env consequent k = .error e m') :
      FailsInside ev env m tail e m' .conditional (test :: consequent :: rest)
  | alternative {test consequent alternative v : Value} {k : Machine}
      (tested : ev env test m = .ok v k) (isFalse : v.isTrue = false)
      (fails : ev env alternative k = .error e m') :
      FailsInside ev env m tail e m' .conditional [test, consequent, alternative]
  | assigned {target value : Value} (fails : ev env value m = .error e m') :
      FailsInside ev env m tail e m' .assignment [target, value]
  | body {operands : List Value} {at_ : Value} {k : Machine} {c : Cell}
      (walked : Walk ev env m tail k at_) (cell : k.store.cell? at_ = some c)
      (fails : ev env c.car k = .error e m') : FailsInside ev env m tail e m' .begin operands

/-! ### Checks -/

section Checks

variable {depth : Nat} {ev : Evaluator} {env : Ref} {m m' : Machine} {expr tail last : Value}
  {form : Form} {operands : List Value} {e : Fault}

/-- Operands that are no proper list are refused. -/
theorem evalForm_of_improper (h : m.store.Spine tail operands last) (hlast : last ≠ .nil)
    (ev : Evaluator) : evalForm depth ev env form tail m = .error (.improperForm form.name) m := by
  have hoperands := formOperands_run form (Store.spine?_eq_some_iff.mpr h)
  rw [if_neg hlast] at hoperands
  exact bind_run_error hoperands

/-- A wrong number of operands is refused. -/
theorem evalForm_of_count (h : m.store.Spine tail operands .nil)
    (hcount : ¬ form.Takes operands.length) :
    ∃ e : Fault, e.IsArity ∧ ∀ ev, evalForm depth ev env form tail m = .error e m := by
  cases form with
  | quote =>
      refine ⟨_, .intro "quote" (some 1) (some operands.length), fun ev => ?_⟩
      refine (bind_run_ok (formOperands_proper _ h)).trans ?_
      match operands with
      | [] | _ :: _ :: _ => rfl
      | [d] => exact absurd rfl hcount
  | conditional =>
      refine ⟨_, .intro "if requires 2 or 3 operands" none (some operands.length), fun ev => ?_⟩
      refine (bind_run_ok (formOperands_proper _ h)).trans ?_
      match operands with
      | [] | [_] | _ :: _ :: _ :: _ :: _ => rfl
      | [_, _] => exact absurd (.inl rfl) hcount
      | [_, _, _] => exact absurd (.inr rfl) hcount
  | begin => exact absurd trivial hcount
  | assignment =>
      refine ⟨_, .intro "set!" (some 2) (some operands.length), fun ev => ?_⟩
      refine (bind_run_ok (formOperands_proper _ h)).trans ?_
      dsimp only
      split
      · exact absurd rfl hcount
      · exact absurd rfl hcount
      · rfl
  | lambda =>
      refine ⟨_, .intro "lambda requires a parameter list" none none, fun ev => ?_⟩
      refine (bind_run_ok (formOperands_proper _ h)).trans ?_
      match operands with
      | _ :: _ => exact absurd (Nat.succ_pos _) hcount
      | [] =>
          obtain ⟨-, hcell⟩ : tail = .nil ∧ m.store.cell? tail = none := by
            cases h with
            | last hcell => exact ⟨rfl, hcell⟩
          show ((inquire fun s => s.cell? tail) >>= _) m = _
          rw [inquire_bind_run, hcell]
          rfl

/-- An assignment to something that is no symbol is refused. -/
theorem evalForm_of_target {target value : Value} (h : m.store.Spine tail [target, value] .nil)
    (htarget : ∀ name, target ≠ .symbol name) (ev : Evaluator) :
    evalForm depth ev env .assignment tail m
      = .error (m.store.complaint depth .assignmentTarget target) m := by
  refine (bind_run_ok (formOperands_proper _ h)).trans ?_
  refine Eq.trans ?_ (failShowing_run depth .assignmentTarget target m)
  cases target with
  | symbol name => exact absurd rfl (htarget name)
  | _ => rfl

/-! ### Faults of the parts -/

/-- Only nesting keeps an event from being noted. -/
theorem note_eq_error {event : Store → Except Fault Event} (h : note event m = .error e m') :
    e = .tooDeep := by
  unfold note at h
  split at h
  · cases h
  · split at h <;> cases h
    rfl

theorem makeClosure_eq_error {formals body : Value}
    (h : makeClosure depth env formals body m = .error e m') : e = .tooDeep := by
  rcases bind_eq_error h with hnew | ⟨v, k, -, hrest⟩
  · cases hnew
  · rcases bind_eq_error hrest with hnote | ⟨-, k', -, hpure⟩
    · exact note_eq_error hnote
    · cases hpure

/-- A body fails at a pair that the walk reaches, unless it does not end. -/
theorem evalBody_eq_error (fuel : Nat) :
    ∀ {m : Machine} {result body : Value}, evalBody ev env fuel result body m = .error e m' →
      e = .endless ∨ ∃ k last c, Walk ev env m body k last ∧ k.store.cell? last = some c ∧
        ev env c.car k = .error e m' := by
  induction fuel with
  | zero =>
      intro m result body h
      cases h
      exact .inl rfl
  | succ fuel ih =>
      intro m result body h
      rw [evalBody, inquire_bind_run] at h
      cases hcell : m.store.cell? body with
      | none => rw [hcell] at h; cases h
      | some c =>
          rw [hcell] at h
          rcases bind_eq_error h with hfails | ⟨v, k, hvalue, hrest⟩
          · exact .inr ⟨m, body, c, .here m body, hcell, hfails⟩
          · rw [inquire_bind_run] at hrest
            refine (ih hrest).imp_right ?_
            rintro ⟨k', last, c', hwalk, hlast, hfails⟩
            exact ⟨k', last, c', .step hcell hvalue hwalk, hlast, hfails⟩

/-- A conditional fails in its test, in its first branch if the test is true, or
in what is done otherwise. -/
theorem failsInside_of_branches {test consequent : Value} {rest : List Value}
    {otherwise : Eval Value}
    (h : (ev env test >>= fun v => if v.isTrue then ev env consequent else otherwise) m
      = .error e m')
    (hotherwise : ∀ v k, ev env test m = .ok v k → v.isTrue = false → otherwise k = .error e m' →
      FailsInside ev env m tail e m' .conditional (test :: consequent :: rest)) :
    FailsInside ev env m tail e m' .conditional (test :: consequent :: rest) := by
  rcases bind_eq_error h with hfails | ⟨v, k, htest, hbranch⟩
  · exact .test hfails
  · split at hbranch
    · rename_i htrue
      exact .consequent htest htrue hbranch
    · rename_i hfalse
      exact hotherwise v k htest (Bool.eq_false_iff.mpr hfalse) hbranch

/-- An assignment fails in its value, or because the name is not bound. -/
theorem failsInside_of_assign {name : String} {value : Value} (hkind : e.IsSyntax ∨ e.IsArity)
    (h : (ev env value >>= assign env name) m = .error e m') :
    FailsInside ev env m tail e m' .assignment [.symbol name, value] := by
  rcases bind_eq_error h with hfails | ⟨v, k, -, hassign⟩
  · exact .assigned hfails
  · rcases assign_run env name v k with ⟨r, -, k', hok, -⟩ | ⟨-, hunbound⟩
    · cases hok.symm.trans hassign
    · cases hunbound.symm.trans hassign
      rcases hkind with hkind | hkind <;> cases hkind

/-- A form that is well formed fails with a fault of shape only inside a part
that it evaluates. -/
theorem failsInside_of_error (h : m.store.Spine tail operands .nil)
    (hcount : form.Takes operands.length)
    (htarget : form = .assignment → ∃ name, operands.head? = some (.symbol name))
    (hkind : e.IsSyntax ∨ e.IsArity) (herror : evalForm depth ev env form tail m = .error e m') :
    FailsInside ev env m tail e m' form operands := by
  have hrest := (bind_run_ok (formOperands_proper _ h)).symm.trans herror
  cases form with
  | quote =>
      obtain ⟨d, rfl⟩ := List.length_eq_one_iff.mp hcount
      cases hrest
  | conditional =>
      rcases hcount with hcount | hcount
      · obtain ⟨test, consequent, rfl⟩ := List.length_eq_two.mp hcount
        exact failsInside_of_branches hrest fun v k _ _ hbranch => by cases hbranch
      · obtain ⟨test, consequent, alternative, rfl⟩ := List.length_eq_three.mp hcount
        exact failsInside_of_branches hrest fun v k htest hfalse hbranch =>
          .alternative htest hfalse hbranch
  | begin =>
      dsimp only at hrest
      rw [evalSequence, inquire_bind_run] at hrest
      rcases evalBody_eq_error _ hrest with rfl | ⟨k, last, c, hwalk, hcell, hfails⟩
      · rcases hkind with hkind | hkind <;> cases hkind
      · exact .body hwalk hcell hfails
  | assignment =>
      obtain ⟨target, value, rfl⟩ := List.length_eq_two.mp hcount
      obtain ⟨name, hname⟩ := htarget rfl
      obtain rfl : target = .symbol name := by simpa using hname
      exact failsInside_of_assign hkind hrest
  | lambda =>
      dsimp only at hrest
      rw [inquire_bind_run] at hrest
      cases hcell : m.store.cell? tail with
      | none =>
          cases h with
          | last => exact absurd hcount (Nat.lt_irrefl 0)
          | link cell => cases cell.symm.trans hcell
      | some c =>
          rw [hcell] at hrest
          obtain rfl := makeClosure_eq_error hrest
          rcases hkind with hkind | hkind <;> cases hkind

theorem refusedAtOnce_of_error {kind : Fault → Prop} (hkind : kind e)
    (h : ∀ ev, evaluateWith depth ev env expr m = .error e m) :
    RefusedAtOnce kind depth env expr m := ⟨e, hkind, h (evaluate depth), h⟩

end Checks

/-- **Special forms are checked before anything is evaluated.** Take a form that
was read from a text and stands in the machine as it was read. If its operands
are no proper list, it is refused at once; else, if it does not take so many; else,
if it is an assignment to something that is no symbol. There the message names the
target, so the levels for its text have to be left; where they are not, nesting is
the fault, and nothing is evaluated either. Any other form ends in a fault of shape
only if a part that it evaluates does. -/
theorem forms_are_checked_first {limit : Nat} {source : String} {form : Form} {tail : Datum}
    (hread : .pair (.symbol form.name) tail ∈ (read limit source).1) {m : Machine} {expr : Value}
    (hexpr : m.store.Unfolds expr (.pair (.symbol form.name) tail)) (env : Ref) (depth : Nat) :
    (tail.unchain.2 ≠ .nil → RefusedAtOnce Fault.IsSyntax depth env expr m) ∧
    (tail.unchain.2 = .nil → ¬ form.Takes tail.unchain.1.length →
      RefusedAtOnce Fault.IsArity depth env expr m) ∧
    (∀ target value, tail.unchain = ([target, value], .nil) → form = .assignment →
      (∀ name, target ≠ .symbol name) →
        (target.nesting .alone ≤ depth → RefusedAtOnce Fault.IsSyntax depth env expr m) ∧
        RefusedAtOnce (fun e => e.IsSyntax ∨ e = .tooDeep) depth env expr m) ∧
    (tail.unchain.2 = .nil → form.Takes tail.unchain.1.length →
      (form = .assignment → ∃ name, tail.unchain.1.head? = some (.symbol name)) →
        ∀ e m', evaluate (depth + 1) env expr m = .error e m' → e.IsSyntax ∨ e.IsArity →
          ∃ c operands, m.store.cell? expr = some c ∧
            List.Forall₂ m.store.Unfolds operands tail.unchain.1 ∧
            FailsInside (evaluate depth) env m c.cdr e m' form operands) := by
  obtain ⟨htext, -⟩ := textual_of_mem_read hread
  obtain ⟨c, hcell, hname, htail⟩ : ∃ c, m.store.cell? expr = some c ∧
      c.car = .symbol form.name ∧ m.store.Unfolds c.cdr tail := by
    cases hexpr with
    | pair cell first rest => exact ⟨_, cell, (first.eq_symbol_iff _).mpr rfl, rest⟩
  obtain ⟨name, rest⟩ := c
  obtain rfl : name = .symbol form.name := hname
  obtain ⟨operands, last, hspine, hoperands, hlast⟩ := htail.exists_unchained
  have heval : ∀ ev, evaluateWith depth ev env expr m = evalForm depth ev env form rest m :=
    fun ev => evaluateWith_form depth ev env hcell
  refine ⟨fun himproper => ?improper, fun hproper hcount => ?count,
    fun target value hunchain hform htarget => ?target, fun hproper hcount htarget => ?inside⟩
  case improper =>
    refine refusedAtOnce_of_error (.improperForm form.name) fun ev => ?_
    rw [heval, evalForm_of_improper hspine (mt hlast.eq_nil_iff.mp himproper)]
  case count =>
    obtain rfl := hlast.eq_nil_iff.mpr hproper
    rw [← hoperands.length_eq] at hcount
    have hrefused : ∃ e : Fault, e.IsArity ∧
        ∀ ev, evalForm depth ev env form rest m = .error e m := evalForm_of_count hspine hcount
    obtain ⟨e, hkind, herror⟩ := hrefused
    exact refusedAtOnce_of_error hkind fun ev => (heval ev).trans (herror ev)
  case target =>
    subst hform
    rw [hunchain] at hoperands hlast
    obtain rfl := hlast.eq_nil_iff.mpr rfl
    obtain ⟨w, x, rfl, hw⟩ : ∃ w x, operands = [w, x] ∧ m.store.Unfolds w target := by
      rcases hoperands with _ | ⟨hw, _ | ⟨_, _ | _⟩⟩
      exact ⟨_, _, rfl, hw⟩
    have herror := fun ev => (heval ev).trans
      (evalForm_of_target hspine (fun name => mt (hw.eq_symbol_iff name).mp (htarget name)) ev)
    have htargetText : target.HasText := by
      cases htext with
      | pair _ textual =>
          exact (textual.of_mem_unchain (by rw [hunchain]; exact List.mem_cons_self)).hasText
    refine ⟨fun hdepth => refusedAtOnce_of_error ?_ herror, refusedAtOnce_of_error ?_ herror⟩
    · obtain ⟨shown, hshown⟩ :=
        Store.exists_complaint_eq htargetText hw hdepth .assignmentTarget
      exact hshown ▸ .assignmentTarget shown
    · exact (Store.complaint_cases htargetText hw depth .assignmentTarget).imp_left
        fun ⟨shown, hshown⟩ => hshown ▸ .assignmentTarget shown
  case inside =>
    obtain rfl := hlast.eq_nil_iff.mpr hproper
    intro e m' hfails hkind
    have herror := (heval (evaluate depth)).symm.trans hfails
    refine ⟨_, operands, hcell, hoperands, failsInside_of_error hspine ?_ ?_ hkind herror⟩
    · rwa [hoperands.length_eq]
    · intro hform
      obtain ⟨name, hname⟩ := htarget hform
      exact ⟨name, (Store.head?_eq_symbol_iff hoperands name).mpr hname⟩

/-- One form of each kind, with a fault of its own or, behind `begin`, inside. -/
def misshapenForms : String := "(quote (f) . 1) (if (f)) (begin (quote)) (set! (f) 1) (lambda)"

/-- The operands of those forms. -/
def Form.misshapenTail : Form → Datum
  | .quote => .pair (.pair (.symbol "f") .nil) (.number (.int 1))
  | .conditional => .pair (.pair (.symbol "f") .nil) .nil
  | .begin => .pair (.pair (.symbol "quote") .nil) .nil
  | .assignment => .pair (.pair (.symbol "f") .nil) (.pair (.number (.int 1)) .nil)
  | .lambda => .nil

/-- Such a form in an otherwise empty machine. -/
def Form.misshapen (form : Form) : Value × Machine :=
  let loaded := Store.load {} (.pair (.symbol form.name) form.misshapenTail)
  (loaded.1, { store := loaded.2 })

set_option maxRecDepth 4000 in
/-- The theorem at those forms. -/
theorem forms_are_checked_first_misshapenForms :
    (∀ form : Form, .pair (.symbol form.name) form.misshapenTail ∈ (read 2 misshapenForms).1) ∧
    RefusedAtOnce Fault.IsSyntax 2 0 (Form.misshapen .quote).1 (Form.misshapen .quote).2 ∧
    RefusedAtOnce Fault.IsArity 2 0 (Form.misshapen .conditional).1
      (Form.misshapen .conditional).2 ∧
    RefusedAtOnce Fault.IsSyntax 2 0 (Form.misshapen .assignment).1
      (Form.misshapen .assignment).2 ∧
    RefusedAtOnce Fault.IsArity 2 0 (Form.misshapen .lambda).1 (Form.misshapen .lambda).2 ∧
    ∃ e m' tail operands, e.IsArity ∧
      evaluate 3 0 (Form.misshapen .begin).1 (Form.misshapen .begin).2 = .error e m' ∧
      FailsInside (evaluate 2) 0 (Form.misshapen .begin).2 tail e m' .begin operands := by
  have hread : (read 2 misshapenForms).1
      = Form.all.map fun form => .pair (.symbol form.name) form.misshapenTail := rfl
  have hmem : ∀ form : Form,
      .pair (.symbol form.name) form.misshapenTail ∈ (read 2 misshapenForms).1 := fun form => by
    rw [hread]
    exact List.mem_map_of_mem (by cases form <;> decide)
  have hloaded : ∀ form : Form, form.misshapen.2.store.Unfolds form.misshapen.1
      (.pair (.symbol form.name) form.misshapenTail) := fun form => Store.unfolds_load _ _
  have herror : evaluate 3 0 (Form.misshapen .begin).1 (Form.misshapen .begin).2
      = .error (.arity "quote" (some 1) (some 0)) (Form.misshapen .begin).2 := rfl
  refine ⟨hmem, ?_, ?_, ?_, ?_, ?_⟩
  · exact (forms_are_checked_first (hmem .quote) (hloaded .quote) 0 2).1 nofun
  · exact (forms_are_checked_first (hmem .conditional) (hloaded .conditional) 0 2).2.1 rfl
      (by decide)
  · exact ((forms_are_checked_first (hmem .assignment) (hloaded .assignment) 0 2).2.2.1 _ _ rfl rfl
      nofun).1 (by decide)
  · exact (forms_are_checked_first (hmem .lambda) (hloaded .lambda) 0 2).2.1 rfl (by decide)
  · obtain ⟨c, operands, -, -, hinside⟩ :=
      (forms_are_checked_first (hmem .begin) (hloaded .begin) 0 2).2.2.2 rfl trivial nofun _ _
        herror (.inr (.intro _ _ _))
    exact ⟨_, _, _, _, .intro _ _ _, herror, hinside⟩

end MiniScheme
