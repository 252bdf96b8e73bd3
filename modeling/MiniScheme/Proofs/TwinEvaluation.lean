import MiniScheme.Proofs.SyntaxTree
import MiniScheme.Proofs.TwinActions

/-!
# `MiniScheme.Proofs.TwinEvaluation`: evaluations side by side

Code that does the same on both sides, evaluated in environments that
correspond, ends alike: `Twins.tallies_evaluate`. The proof follows the
evaluator, one lemma for each of its functions, and by induction on the
nesting that is left for the recursion.
-/

set_option autoImplicit false

namespace MiniScheme

/-! ### Forms -/

/-- A quoted value evaluates to itself. -/
theorem evaluateWith_quotation {F : Type} [HostFunctions F] (depth : Nat) (ev : Evaluator F)
    (env : Ref) {m : Machine F}
    {q q' : Ref} {v : Value} (hq : m.store.cells[q]? = some ⟨.symbol "quote", .pair q'⟩)
    (hq' : m.store.cells[q']? = some ⟨v, .nil⟩) :
    evaluateWith depth ev env (.pair q) m = .ok v m := by
  have htail : m.store.Spine (.pair q') [v] .nil := .link (c := ⟨v, .nil⟩) hq' (.last rfl)
  have hquote : m.store.cell? (.pair q) = some ⟨.symbol Form.quote.name, .pair q'⟩ := hq
  rw [evaluateWith_form depth ev env hquote, evalForm,
    bind_run_ok (formOperands_proper .quote htail)]
  rfl

/-! ### Replies -/

/-- The reply to what was evaluated. -/
def reply {F : Type} (shown : Nat) : EStateM.Result Fault (Machine F) Value → Reply
  | .ok v m => .ok (m.store.write shown v)
  | .error f _ => .error f

namespace Twins

variable {σ : Secret} {F : Type} [HostFunctions F] {p p' : Twins σ F} {hidden : Bool} {e e' : Ref}
  {v v' : Value}

/-- The evaluators give data that correspond, for expressions that do the same
in environments that correspond. -/
def LikeEvaluators (σ : Secret) (ev ev' : Evaluator F) : Prop :=
  ∀ (p : Twins σ F) (hidden : Bool) (e e' : Ref) (v v' : Value), p.Scope hidden e e' →
    p.Matches hidden .expression v v' → Tallies p (ev e v) (ev' e' v') LikeResults

variable {ev ev' : Evaluator F}

/-! ### Bodies and operands -/

/-- A walk along a body meets its elements, since code does not change. -/
theorem tallies_evalBody (hev : LikeEvaluators σ ev ev') {items : List Value} :
    ∀ {p : Twins σ F} {e e' : Ref} {items' : List Value} {v v' last last' result result' : Value}
      {fuel fuel' : Nat}, p.Scope hidden e e' →
      p.Chains (p.Matches hidden .expression) last last' items items' v v' →
      items.length < fuel → items.length < fuel' → p.LikeData result result' →
      Tallies p (evalBody ev e fuel result v) (evalBody ev' e' fuel' result' v') LikeResults := by
  induction items with
  | nil =>
      intro p e e' items' v v' last last' result result' fuel fuel' _ hchains hfuel hfuel' hresult
      obtain ⟨fuel, rfl⟩ : ∃ n, fuel = n + 1 := ⟨fuel - 1, by omega⟩
      obtain ⟨fuel', rfl⟩ : ∃ n, fuel' = n + 1 := ⟨fuel' - 1, by omega⟩
      cases hchains with
      | last single like =>
          refine tallies_inquire_bind ?_
          rw [Chains.cell?_of_single single, Chains.cell?_of_single (like.single single)]
          exact .pure hresult
  | cons first items ih =>
      intro p e e' items' v v' last last' result result' fuel fuel' hscope hchains hfuel hfuel' _
      obtain ⟨fuel, rfl⟩ : ∃ n, fuel = n + 1 := ⟨fuel - 1, by omega⟩
      obtain ⟨fuel', rfl⟩ : ∃ n, fuel' = n + 1 := ⟨fuel' - 1, by omega⟩
      rw [List.length_cons] at hfuel hfuel'
      cases hchains with
      | @link r q c d _ items' code hfirst hrest =>
          have hcell : p.left.cell? (.pair r) = some c := code.fields
          have hcell' : p.right.cell? (.pair q) = some d := code.fields'
          refine tallies_inquire_bind ?_
          rw [hcell, hcell']
          refine (hev p hidden e e' _ _ hscope hfirst).bind fun p₁ hle₁ w w' hw =>
            tallies_inquire_bind ?_
          -- The pair just visited is code, so it still has the same rest.
          have hcdr : p₁.left.cdrOf (.pair r) = c.cdr := by
            have hkept : p₁.left.cell? (.pair r) = some c := (code.mono hle₁).fields
            rw [Store.cdrOf, hkept]
            rfl
          have hcdr' : p₁.right.cdrOf (.pair q) = d.cdr := by
            have hkept : p₁.right.cell? (.pair q) = some d := (code.mono hle₁).fields'
            rw [Store.cdrOf, hkept]
            rfl
          rw [hcdr, hcdr']
          exact ih (hscope.mono hle₁) (hrest.mono hle₁ fun _ _ => Matches.mono hle₁) (by omega)
            (by omega) hw

/-- No body is longer than its store, so both walks end. -/
theorem tallies_evalSequence (hev : LikeEvaluators σ ev ev') (hscope : p.Scope hidden e e')
    (h : p.Matches hidden .operands v v') :
    Tallies p (evalSequence ev e v) (evalSequence ev' e' v') LikeResults := by
  obtain ⟨last, last', items, items', hchains⟩ := h.chains
  have hlength := hchains.spine.length_le
  have hlength' := hchains.spine'.length_le
  have hsame := hchains.forall₂.length_eq
  have hlimit : 0 < walkLimit := by decide
  refine tallies_inquire_bind (tallies_evalBody hev hscope hchains ?_ ?_ (.atom trivial))
  · omega
  · omega

theorem tallies_evalOperands (hev : LikeEvaluators σ ev ev') {items : List Value} :
    ∀ {p : Twins σ F} {e e' : Ref} {items' done done' : List Value}, p.Scope hidden e e' →
      List.Forall₂ (p.Matches hidden .expression) items items' →
      List.Forall₂ p.LikeData done done' →
      Tallies p (evalOperands ev e done items) (evalOperands ev' e' done' items')
        fun p' args args' => List.Forall₂ p'.LikeData args args' := by
  induction items with
  | nil =>
      intro p e e' items' done done' _ hitems hdone
      cases hitems
      exact .pure (List.rel_reverse hdone)
  | cons first items ih =>
      intro p e e' items' done done' hscope hitems hdone
      cases hitems with
      | cons hfirst hitems =>
          refine (hev p hidden e e' _ _ hscope hfirst).bind fun p₁ hle₁ w w' hw => ?_
          exact ih (hscope.mono hle₁) (hitems.imp fun _ _ => Matches.mono hle₁)
            (.cons hw (hdone.imp fun _ _ hv => hv.mono hle₁.toGrows))

/-! ### Procedures -/

theorem tallies_applyClosure (hev : LikeEvaluators σ ev ev') (depth : Nat) {fn fn' : Value}
    (hfn : p.Like fn fn') {k k' : Closure} (hk : p.LikeClosure k k') {args args' : List Value}
    (hargs : List.Forall₂ p.LikeData args args') :
    Tallies p (applyClosure depth ev fn k args) (applyClosure depth ev' fn' k' args')
      LikeResults := by
  obtain ⟨scope, formals, params, body⟩ := hk
  refine (tallies_extend depth scope formals params hargs).bind
    fun p₁ hle₁ r q hscope => .of_lawful fun hp₁ => ?_
  have hshown := hp₁.display_eq depth (hfn.mono hle₁.toGrows)
  refine (Tallies.note_text hshown).bind fun p₂ hle₂ _ _ _ => ?_
  exact tallies_evalSequence hev (hscope.mono hle₂) (body.mono (hle₁.trans hle₂))

/-- Procedures that correspond do the same with arguments that correspond. -/
theorem tallies_applyWith (hev : LikeEvaluators σ ev ev') (depth : Nat) (h : p.LikeData v v')
    {args args' : List Value} (hargs : List.Forall₂ p.LikeData args args') :
    Tallies p (applyWith depth ev v args) (applyWith depth ev' v' args') LikeResults := by
  refine .of_lawful fun hp => ?_
  have hlike := h.like
  cases hlike with
  | primitive r =>
      refine tallies_inquire_bind ?_
      rw [hp.primitives]
      cases hprimitive : p.left.primitives[r]? with
      | some primitive =>
          have huniform := hp.hosts primitive (Array.mem_of_getElem? hprimitive)
          exact tallies_applyPrimitive depth huniform hargs
      | none => exact tallies_failShowing depth _ (.primitive r)
  | @closure r q twin =>
      obtain ⟨k, k', hk, hk', hlaw⟩ := hp.closure r q twin
      refine tallies_inquire_bind ?_
      rw [hk, hk']
      exact tallies_applyClosure hev depth h.like hlaw hargs
  | pair twin => exact tallies_failShowing depth _ (.pair twin)
  | vector twin => exact tallies_failShowing depth _ (.vector twin)
  | @atom v simple =>
      cases v with
      | primitive | closure => exact simple.elim
      | _ => exact tallies_failShowing depth _ (.atom simple)

/-! ### Special forms -/

/-- Only one datum is quoted, and it is the datum on the other side. -/
theorem tallies_quote (depth : Nat) (h : p.Matches hidden .quotation v v') :
    Tallies p (evalForm depth ev e .quote v) (evalForm depth ev' e' .quote v') LikeResults := by
  cases h with
  | leaf single like =>
      have hchains : p.Chains p.Like v v' [] [] v v' := .last single like
      exact tallies_formOperands_bind hchains .quote fun _ => .throw _
  | @quotation _ r q c d code rest rest' datum =>
      have hchains : p.Chains p.LikeData .nil .nil [c.car] [d.car] (.pair r) (.pair q) :=
        .link code datum (by rw [rest, rest']; exact .last (by simp) (.atom trivial))
      exact tallies_formOperands_bind hchains .quote fun _ => .pure datum
  | @misquotation _ _ r q c d code more rest =>
      obtain ⟨last, last', items, items', hrest⟩ := rest.chains
      refine tallies_formOperands_bind (hrest.behind code) .quote fun hlast => ?_
      have hempty : items ≠ [] := by
        rintro rfl
        exact more (hrest.spine.eq_last.trans hlast)
      cases hrest.forall₂ with
      | nil => exact absurd rfl hempty
      | cons _ hitems =>
          simp only [List.length_cons, hitems.length_eq]
          exact .throw _

theorem Lawful.isTrue_eq (hp : p.Lawful) (h : p.Like v v') : v.isTrue = v'.isTrue := by
  unfold Value.isTrue
  rw [decide_eq_decide, ne_eq, ne_eq, hp.eq_atom_iff h (a := .boolean false) trivial]

/-- The test chooses the same way on both sides. -/
theorem tallies_branch (hev : LikeEvaluators σ ev ev') (hscope : p.Scope hidden e e')
    {a a' b b' : Value} (htest : p.Matches hidden .expression a a')
    (hthen : p.Matches hidden .expression b b') {x y : EvalOn F Value}
    (helse : ∀ p₁, p ≤ p₁ → Tallies p₁ x y LikeResults) :
    Tallies p (ev e a >>= fun w => if w.isTrue then ev e b else x)
      (ev' e' a' >>= fun w => if w.isTrue then ev' e' b' else y) LikeResults := by
  refine (hev p hidden e e' a a' hscope htest).bind fun p₁ hle₁ w w' hw => .of_lawful fun hp₁ => ?_
  rw [hp₁.isTrue_eq hw.like]
  split
  · exact hev p₁ hidden e e' b b' (hscope.mono hle₁) (hthen.mono hle₁)
  · exact helse p₁ hle₁

theorem tallies_conditional (hev : LikeEvaluators σ ev ev') (depth : Nat)
    (hscope : p.Scope hidden e e') (h : p.Matches hidden .operands v v') :
    Tallies p (evalForm depth ev e .conditional v) (evalForm depth ev' e' .conditional v')
      LikeResults := by
  obtain ⟨last, last', items, items', hchains⟩ := h.chains
  refine tallies_formOperands_bind hchains .conditional fun _ => ?_
  -- There may be no, one, two, three or more operands.
  cases hchains.forall₂ with
  | nil => exact .throw _
  | cons htest hrest =>
      cases hrest with
      | nil => exact .throw _
      | cons hthen hrest =>
          cases hrest with
          | nil => exact tallies_branch hev hscope htest hthen fun _ _ => .pure (.atom trivial)
          | @cons b b' _ _ helse hrest =>
              cases hrest with
              | nil =>
                  exact tallies_branch hev hscope htest hthen fun p₁ hle₁ =>
                    hev p₁ hidden e e' b b' (hscope.mono hle₁) (helse.mono hle₁)
              | cons _ hrest =>
                  simp only [List.length_cons, hrest.length_eq]
                  exact .throw _

/-- In hidden mode the secret name is not assigned. -/
theorem tallies_assignment (hev : LikeEvaluators σ ev ev') (depth : Nat)
    (hscope : p.Scope hidden e e') (h : p.Matches hidden .assignment v v') :
    Tallies p (evalForm depth ev e .assignment v) (evalForm depth ev' e' .assignment v')
      LikeResults := by
  cases h with
  | leaf single like =>
      have hchains : p.Chains p.Like v v' [] [] v v' := .last single like
      exact tallies_formOperands_bind hchains .assignment fun _ => .throw _
  | @assignment _ r q c d code target other rest =>
      obtain ⟨last, last', items, items', htail⟩ := rest.chains
      refine tallies_formOperands_bind (htail.behind code) .assignment fun _ => ?_
      generalize hcar : c.car = a, hcar' : d.car = a' at target other ⊢
      cases htail.forall₂ with
      | nil => cases a <;> cases a' <;> exact .throw _
      | cons hexpr hrest =>
          cases hrest with
          | nil =>
              cases target with
              | @atom a simple =>
                  cases a with
                  | symbol name =>
                      refine (hev p hidden e e' _ _ hscope hexpr).bind fun p₁ hle₁ w w' hw => ?_
                      exact tallies_assign (hscope.mono hle₁)
                        (fun hhidden heq => other hhidden (by rw [heq])) hw
                  | _ => exact tallies_failShowing depth _ (.atom simple)
              | pair twin => exact tallies_failShowing depth _ (.pair twin)
              | vector twin => exact tallies_failShowing depth _ (.vector twin)
              | closure twin => exact tallies_failShowing depth _ (.closure twin)
              | primitive r => exact tallies_failShowing depth _ (.primitive r)
          | cons _ hrest =>
              simp only [List.length_cons, hrest.length_eq]
              cases a <;> cases a' <;> exact .throw _

theorem tallies_abstraction (depth : Nat) (hscope : p.Scope hidden e e')
    (h : p.Matches hidden .abstraction v v') :
    Tallies p (evalForm depth ev e .lambda v) (evalForm depth ev' e' .lambda v') LikeResults := by
  cases h with
  | leaf single like =>
      have hchains : p.Chains p.Like v v' [] [] v v' := .last single like
      refine tallies_formOperands_bind hchains .lambda fun _ => tallies_inquire_bind ?_
      rw [Chains.cell?_of_single single, Chains.cell?_of_single (like.single single)]
      exact .throw _
  | @abstraction _ found r q c d code formals params body =>
      obtain ⟨last, last', items, items', hbody⟩ := body.chains
      refine tallies_formOperands_bind (hbody.behind code) .lambda fun _ => tallies_inquire_bind ?_
      have hcell : p.left.cell? (.pair r) = some c := code.fields
      have hcell' : p.right.cell? (.pair q) = some d := code.fields'
      rw [hcell, hcell']
      have hclosure : p.LikeClosure ⟨c.car, c.cdr, e⟩ ⟨d.car, d.cdr, e'⟩ :=
        .intro hscope formals params body
      exact tallies_makeClosure depth hclosure

theorem tallies_evalForm (hev : LikeEvaluators σ ev ev') (depth : Nat)
    (hscope : p.Scope hidden e e') (form : Form) (h : p.Matches hidden form.place v v') :
    Tallies p (evalForm depth ev e form v) (evalForm depth ev' e' form v') LikeResults := by
  cases form with
  | quote => exact tallies_quote depth h
  | conditional => exact tallies_conditional hev depth hscope h
  | begin =>
      obtain ⟨last, last', items, items', hchains⟩ := Matches.chains h
      exact tallies_formOperands_bind hchains .begin fun _ => tallies_evalSequence hev hscope h
  | assignment => exact tallies_assignment hev depth hscope h
  | lambda => exact tallies_abstraction depth hscope h

/-! ### Expressions -/

/-- A call is shown only if its operands are no proper list. -/
theorem tallies_evalCall (hev : LikeEvaluators σ ev ev') (depth : Nat)
    (hscope : p.Scope hidden e e') {r q : Ref} {c d : Cell}
    (fn : p.Matches hidden .expression c.car d.car)
    (tail : p.Matches hidden .operands c.cdr d.cdr) (shown : p.cells r q ∨ p.Proper c.cdr) :
    Tallies p (evalCall depth ev e (.pair r) c.car c.cdr)
      (evalCall depth ev' e' (.pair q) d.car d.cdr) LikeResults := by
  refine (hev p hidden e e' _ _ hscope fn).bind fun p₁ hle₁ w w' hw => .of_lawful fun hp₁ => ?_
  obtain ⟨last, last', items, items', hchains⟩ := (tail.mono hle₁).chains
  have hlast := hp₁.eq_atom_iff hchains.ends (a := .nil) trivial
  refine tallies_spine_bind hchains ?_
  dsimp only
  by_cases hnil : last = .nil
  · rw [if_neg (not_not.mpr hnil), if_neg (not_not.mpr (hlast.mp hnil))]
    refine (tallies_evalOperands hev (hscope.mono hle₁) hchains.forall₂ .nil).bind
      fun p₂ hle₂ args args' hargs => ?_
    exact tallies_applyWith hev depth (hw.mono hle₂.toGrows) hargs
  · rw [if_pos hnil, if_pos fun hnil' => hnil (hlast.mpr hnil')]
    rcases shown with twin | hproper
    · exact tallies_failShowing depth _ (.pair (hle₁.cells r q twin))
    · obtain ⟨proper, hspine⟩ := (hproper.mono hle₁).spine
      exact absurd (hchains.spine.unique hspine).2 hnil

/-- The name on the left has the value that is quoted on the right. -/
theorem tallies_secret (depth : Nat) (hscope : p.Scope true e e') {w w' : Value}
    (hknown : σ.values = some (w, w')) {q q' : Ref}
    (fields : p.right.cells[q]? = some ⟨.symbol "quote", .pair q'⟩)
    (fields' : p.right.cells[q']? = some ⟨w', .nil⟩) :
    Tallies p (evaluateWith depth ev e (.symbol σ.name)) (evaluateWith depth ev' e' (.pair q))
      LikeResults := by
  refine .of_lawful fun hp => ?_
  intro m m' hat
  have hlookup : evaluateWith depth ev e (.symbol σ.name) m = .ok w m := by
    show lookup e σ.name m = _
    unfold lookup examine
    have hleft : m.store = p.left := hat.left
    simp only [hleft, hp.lookup?_secret hscope rfl hknown]
  have hquote : evaluateWith depth ev' e' (.pair q) m' = .ok w' m' :=
    evaluateWith_quotation depth ev' e' (hat.right ▸ fields) (hat.right ▸ fields')
  rw [hlookup, hquote]
  exact .ok (le_refl p) hat (hp.secret w w' hknown)

theorem tallies_evaluateWith (hev : LikeEvaluators σ ev ev') (depth : Nat) :
    LikeEvaluators σ (evaluateWith depth ev) (evaluateWith depth ev') := by
  intro p hidden e e' v v' hscope h
  generalize hplace : CodePlace.expression = place at h
  cases h with
  | @leaf _ _ v v' single like other =>
      cases like with
      | @atom v simple =>
          cases v with
          | symbol name =>
              exact tallies_lookup hscope fun hhidden heq => other hplace.symm hhidden (by rw [heq])
          | number | text | boolean => exact .pure (.atom trivial)
          | pair | vector | closure | primitive => exact simple.elim
          | _ => exact tallies_refuse depth (.atom simple)
      | pair => exact absurd rfl (single _)
      | vector twin => exact .pure ⟨.vector twin, by rintro r ⟨⟩⟩
      | closure twin => exact tallies_refuse depth (.closure twin)
      | primitive r => exact tallies_refuse depth (.primitive r)
  | secret known code fields code' fields' =>
      exact tallies_secret depth hscope known fields fields'
  | @form _ r q c d form code head head' tail =>
      have hcell : p.left.cell? (.pair r) = some c := code.fields
      have hcell' : p.right.cell? (.pair q) = some d := code.fields'
      refine tallies_inquire_bind ?_
      rw [hcell, hcell']
      dsimp only
      rw [head, head']
      exact tallies_evalForm hev depth hscope form tail
  | @call _ r q c d code head head' fn tail shown =>
      have hcell : p.left.cell? (.pair r) = some c := code.fields
      have hcell' : p.right.cell? (.pair q) = some d := code.fields'
      refine tallies_inquire_bind ?_
      rw [hcell, hcell']
      dsimp only
      rw [head, head']
      exact tallies_evalCall hev depth hscope fn tail shown
  | operands | assignment | abstraction | quotation | misquotation => cases hplace

/-- Code that does the same on both sides is evaluated alike. -/
theorem tallies_evaluate (σ : Secret) (depth : Nat) :
    LikeEvaluators σ (evaluate depth : Evaluator F) (evaluate depth) := by
  induction depth with
  | zero => exact fun _ _ _ _ _ _ _ _ => .throw _
  | succ depth ih => exact tallies_evaluateWith ih depth

/-! ### Ends -/

/-- Runs that end alike have the same reply. -/
theorem reply_eq_of_ends {x y : EStateM.Result Fault (Machine F) Value}
    (h : Ends p LikeResults x y) (shown : Nat) : reply shown x = reply shown y := by
  cases h with
  | ok later here holds =>
      refine congrArg Except.ok ?_
      rw [here.left, here.right]
      exact here.lawful.write_eq shown holds.like
  | error later here => rfl

end Twins

end MiniScheme
