import MiniScheme.Proofs.Limits
import MiniScheme.Proofs.Replacing
import MiniScheme.Proofs.SelfTwins
import MiniScheme.Proofs.Termination
import MiniScheme.Proofs.TwinEvaluation

/-!
# `MiniScheme.Proofs.Substitution`: parameters are their values

To apply a procedure of one parameter to a value, and to evaluate its body
with the quoted value in the place of the parameter, is the same
(`substitution_law`). The body may not assign the parameter, and calls in it
have to have proper lists of operands.

Both runs start from one store, which corresponds to itself
(`MiniScheme.Proofs.SelfTwins`). They read the body, the second one with the
value in it (`MiniScheme.Proofs.Replacing`). The first one goes on alone for a
while: it makes a closure and a frame that holds the value, and the frame is
hidden (`Twins.Enters`). From there the two bodies are evaluated side by side.
-/

set_option autoImplicit false

namespace MiniScheme

namespace Datum

/-- The proper list of the data. -/
def ofList (items : List Datum) : Datum := items.foldr pair nil

/-- A `lambda` with one parameter. -/
def abstraction (name : String) (body : List Datum) : Datum :=
  pair (symbol "lambda") (pair (pair (symbol name) nil) (ofList body))

/-- A `begin`. -/
def sequence (body : List Datum) : Datum := pair (symbol "begin") (ofList body)

theorem isList_ofList (items : List Datum) : (ofList items).isList = true := by
  induction items with
  | nil => rfl
  | cons d items ih => exact ih

theorem callsProper_ofList {items : List Datum}
    (h : ∀ d ∈ items, d.callsProper .expression = true) :
    (ofList items).callsProper .operands = true := by
  induction items with
  | nil => rfl
  | cons d items ih =>
      have hrest := ih fun e he => h e (List.mem_cons_of_mem d he)
      exact Bool.and_eq_true_iff.mpr ⟨h d List.mem_cons_self, hrest⟩

theorem assigns_ofList {name : String} {items : List Datum}
    (h : ∀ d ∈ items, d.assigns name .expression = false) :
    (ofList items).assigns name .operands = false := by
  induction items with
  | nil => rfl
  | cons d items ih =>
      have hrest := ih fun e he => h e (List.mem_cons_of_mem d he)
      exact Bool.or_eq_false_iff.mpr ⟨h d List.mem_cons_self, hrest⟩

end Datum

theorem Store.load_abstraction (s : Store) (name : String) (body : List Datum) :
    s.load (.abstraction name body) =
      let (formals, s) := s.cons (.symbol name) .nil
      let (body, s) := s.load (.ofList body)
      let (tail, s) := s.cons formals body
      s.cons (.symbol "lambda") tail := by
  rw [Datum.abstraction, load_pair, load_pair, load_pair]
  rfl

theorem Store.loadReplacing_sequence (name : String) (v : Value) (body : List Datum) (s : Store) :
    loadReplacing name v .expression (.sequence body) s =
      let (body, s) := loadReplacing name v .operands (.ofList body) s
      s.cons (.symbol "begin") body := by
  have hform : (Datum.symbol "begin").form? = some .begin := by decide
  simp only [Datum.sequence, loadReplacing, hform]
  rfl

/-! ### The two runs -/

/-- Makes the procedure of one parameter and applies it to the value. -/
def applyAbstraction (depth : Nat) (env : Ref) (name : String) (body : List Datum) (v : Value) :
    Eval Value := do
  let expr ← load (.abstraction name body)
  let fn ← evaluate depth env expr
  apply depth fn [v]

/-- Evaluates the body with the quoted value in the place of the parameter. -/
def evaluateReplaced (depth : Nat) (env : Ref) (name : String) (body : List Datum) (v : Value) :
    Eval Value := do
  let expr ← change (Store.loadReplacing name v .expression (.sequence body))
  evaluate depth env expr

variable {depth : Nat} {env : Ref} {name : String} {body : List Datum} {v : Value}

theorem outlasts_applyAbstraction (depth more : Nat) (env : Ref) (name : String)
    (body : List Datum) (v : Value) : Outlasts (applyAbstraction depth env name body v)
      (applyAbstraction (depth + more) env name body v) :=
  (Outlasts.refl _).bind fun expr => (Outlasts.evaluate depth more env expr).bind fun fn =>
    Outlasts.actions.apply (Outlasts.evaluate depth more) (Nat.le_add_right depth more) fn [v]

theorem outlasts_evaluateReplaced (depth more : Nat) (env : Ref) (name : String)
    (body : List Datum) (v : Value) : Outlasts (evaluateReplaced depth env name body v)
      (evaluateReplaced (depth + more) env name body v) :=
  (Outlasts.refl _).bind fun expr => Outlasts.evaluate depth more env expr

theorem Outlasts.eq_of_ne {α : Type} {x y : Eval α} (h : Outlasts x y) {m : Machine}
    (hm : ∀ k, x m ≠ .error .tooDeep k) : y m = x m :=
  (h m).resolve_left fun ⟨k, hk⟩ => hm k hk

/-! ### Forms -/

theorem evaluate_lambda (depth : Nat) (env : Ref) {m : Machine} {r q : Ref} {formals body : Value}
    {items : List Value} (hr : m.store.cells[r]? = some ⟨.symbol "lambda", .pair q⟩)
    (hq : m.store.cells[q]? = some ⟨formals, body⟩) (hbody : m.store.Spine body items .nil) :
    evaluate (depth + 1) env (.pair r) m = makeClosure depth env formals body m := by
  have hform : m.store.cell? (.pair r) = some ⟨.symbol Form.lambda.name, .pair q⟩ := hr
  have hcell : m.store.cell? (.pair q) = some ⟨formals, body⟩ := hq
  rw [evaluate, evaluateWith_form depth _ env hform, evalForm,
    bind_run_ok (formOperands_proper .lambda (.link hcell hbody))]
  dsimp only
  rw [inquire_bind_run, hcell]

theorem evaluate_begin (depth : Nat) (env : Ref) {m : Machine} {r : Ref} {body : Value}
    {items : List Value} (hr : m.store.cells[r]? = some ⟨.symbol "begin", body⟩)
    (hbody : m.store.Spine body items .nil) :
    evaluate (depth + 1) env (.pair r) m = evalSequence (evaluate depth) env body m := by
  have hform : m.store.cell? (.pair r) = some ⟨.symbol Form.begin.name, body⟩ := hr
  rw [evaluate, evaluateWith_form depth _ env hform, evalForm,
    bind_run_ok (formOperands_proper .begin hbody)]

namespace Twins

variable {σ : Secret} {p p₁ p₂ : Twins σ} {α β : Type} {e e' : Ref}

/-! ### Steps on the left -/

/-- The computation on the left gives this value and leads to this
correspondence, unless it is nested too deeply. -/
structure Enters (p : Twins σ) (x : Eval α) (a : α) (p' : Twins σ) : Prop where
  later : p ≤ p'
  lawful : p'.Lawful
  right : p'.right = p.right
  run : ∀ m, m.store = p.left → (∃ k, x m = .error .tooDeep k) ∨
    ∃ k, x m = .ok a k ∧ k.store = p'.left ∧ k.journal.isSome = m.journal.isSome

namespace Enters

protected theorem pure (hp : p.Lawful) (a : α) : p.Enters (pure a) a p :=
  ⟨le_refl p, hp, rfl, fun m hm => .inr ⟨m, rfl, hm, rfl⟩⟩

protected theorem bind {x : Eval α} {a : α} {f : α → Eval β} {b : β} (hx : p.Enters x a p₁)
    (hf : p₁.Enters (f a) b p₂) : p.Enters (x >>= f) b p₂ := by
  refine ⟨hx.later.trans hf.later, hf.lawful, hf.right.trans hx.right, fun m hm => ?_⟩
  rcases hx.run m hm with ⟨k, hdeep⟩ | ⟨k, hk, hleft, hjournal⟩
  · exact .inl ⟨k, bind_run_error hdeep⟩
  · rw [bind_run_ok hk]
    refine (hf.run k hleft).imp id fun ⟨k', hk', hleft', hjournal'⟩ => ?_
    exact ⟨k', hk', hleft', hjournal'.trans hjournal⟩

theorem change {f : Store → α × Store} (hle : p ≤ p₁) (hp₁ : p₁.Lawful)
    (hright : p₁.right = p.right) (hleft : (f p.left).2 = p₁.left) :
    p.Enters (change f) (f p.left).1 p₁ := by
  refine ⟨hle, hp₁, hright, ?_⟩
  rintro ⟨s, journal⟩ rfl
  exact .inr ⟨_, rfl, hleft, rfl⟩

/-- An event is noted, unless it is nested too deeply. -/
theorem note (hp : p.Lawful) (event : Store → Except Fault Event) :
    p.Enters (note event) () p := by
  refine ⟨le_refl p, hp, rfl, fun m hm => ?_⟩
  unfold MiniScheme.note
  split
  · exact .inr ⟨m, rfl, hm, rfl⟩
  · rename_i events hevents
    split
    · exact .inr ⟨_, rfl, hm, by rw [hevents]; rfl⟩
    · exact .inl ⟨m, rfl⟩
    · exact .inr ⟨m, rfl, hm, rfl⟩

theorem of_run {x y : Eval α} {a : α} (h : p.Enters y a p₁)
    (hxy : ∀ m, m.store = p.left → x m = y m) : p.Enters x a p₁ :=
  ⟨h.later, h.lawful, h.right, fun m hm => hxy m hm ▸ h.run m hm⟩

end Enters

theorem Lawful.enters_makeClosure (hp : p.Lawful) (depth : Nat) (env : Ref)
    (formals body : Value) : p.Enters (makeClosure depth env formals body)
      (.closure p.left.closures.size) (p.closureLeft ⟨formals, body, env⟩) := by
  have hp₁ := hp.closureLeft ⟨formals, body, env⟩
  exact .bind (.change (p.grows_closureLeft _) hp₁ rfl rfl)
    (.bind (.note hp₁ _) (.pure hp₁ _))

/-- The frame with the value of the one parameter is hidden. -/
theorem Lawful.enters_extend (hp : p.Lawful) {v v' : Value} (hknown : σ.values = some (v, v'))
    (depth : Nat) (env : Ref) {r : Ref} (hr : p.left.cells[r]? = some ⟨.symbol σ.name, .nil⟩) :
    p.Enters (extend depth env (.pair r) [v]) p.left.frames.size (p.hide v env) := by
  have hcell : p.left.cell? (.pair r) = some ⟨.symbol σ.name, .nil⟩ := hr
  have hpairs : p.Enters (pairFormals depth (.pair r) 1 0 [] (.pair r) [v]) [(σ.name, v)] p := by
    refine (Enters.pure hp _).of_run fun m hm => ?_
    rw [pairFormals.eq_def]
    dsimp only
    rw [inquire_bind_run, hm, hcell]
    dsimp only
    rw [pairFormals.eq_def]
    dsimp only
    rw [inquire_bind_run]
    rfl
  have hp₁ := hp.hide hknown env
  exact hpairs.bind (.bind (.change (p.grows_hide v env) hp₁ rfl rfl)
    (.bind (.note hp₁ _) (.pure hp₁ _)))

/-! ### Bodies -/

/-- A `lambda` with one parameter of the secret name on the left, and a `begin`
on the right, whose bodies do the same. -/
inductive LikeBodies (p : Twins σ) : Value → Value → Prop
  | intro {r r₁ r₂ q : Ref} {body body' : Value}
      (lambda : p.left.cells[r]? = some ⟨.symbol "lambda", .pair r₁⟩)
      (operands : p.left.cells[r₁]? = some ⟨.pair r₂, body⟩)
      (formals : p.left.cells[r₂]? = some ⟨.symbol σ.name, .nil⟩)
      (sequence : p.right.cells[q]? = some ⟨.symbol "begin", body'⟩)
      (bodies : p.Matches true .operands body body') (proper : p.Proper body) :
      LikeBodies p (.pair r) (.pair q)

theorem Lawful.load_bodies (hp : p.Lawful) {v v' : Value} (hknown : σ.values = some (v, v'))
    {body : List Datum} (hproper : ∀ d ∈ body, d.callsProper .expression = true)
    (hassigns : ∀ d ∈ body, d.assigns σ.name .expression = false) :
    p.Makes (fun s => s.load (.abstraction σ.name body))
      (Store.loadReplacing σ.name v' .expression (.sequence body)) LikeBodies := by
  -- First the parameters are made, then the bodies, and then what is around them.
  have hp₁ := hp.consLeft ⟨.symbol σ.name, .nil⟩
  obtain ⟨p₂, hle₂, hp₂, hleft, hright, hbodies, hlist⟩ :=
    load_replacing hknown (.ofList body) .operands _ hp₁ (Datum.callsProper_ofList hproper)
      (Datum.assigns_ofList hassigns)
  obtain ⟨b, hb⟩ : ∃ b, (p.consLeft ⟨.symbol σ.name, .nil⟩).left.load (.ofList body)
      = (b, p₂.left) := ⟨_, Prod.ext rfl hleft⟩
  obtain ⟨b', hb'⟩ : ∃ b', Store.loadReplacing σ.name v' .operands (.ofList body) p.right
      = (b', p₂.right) := ⟨_, Prod.ext rfl hright⟩
  have hbodies' : p₂.Matches true .operands b b' := by
    rw [show b = _ from congrArg Prod.fst hb.symm, show b' = _ from congrArg Prod.fst hb'.symm]
    exact hbodies
  have hproper' : p₂.Proper b := by
    rw [show b = _ from congrArg Prod.fst hb.symm]
    exact hlist rfl (Datum.isList_ofList body)
  have hp₃ := hp₂.consLeft ⟨.pair p.left.cells.size, b⟩
  have hp₄ := hp₃.consLeft ⟨.symbol "lambda", .pair p₂.left.cells.size⟩
  have hle₄ := (hp₃.grows_consLeft ⟨.symbol "lambda", .pair p₂.left.cells.size⟩).trans
    (hp₄.grows_consRight ⟨.symbol "begin", b'⟩)
  have hle₃ := (hp₂.grows_consLeft ⟨.pair p.left.cells.size, b⟩).trans hle₄
  have hload : p.left.load (.abstraction σ.name body)
      = (.pair (p₂.consLeft ⟨.pair p.left.cells.size, b⟩).left.cells.size,
        ((p₂.consLeft ⟨.pair p.left.cells.size, b⟩).consLeft
          ⟨.symbol "lambda", .pair p₂.left.cells.size⟩).left) := by
    have hcons : p.left.cons (.symbol σ.name) .nil
        = (.pair p.left.cells.size, (p.consLeft ⟨.symbol σ.name, .nil⟩).left) := rfl
    rw [Store.load_abstraction, hcons]
    dsimp only
    rw [hb]
    rfl
  have hload' : Store.loadReplacing σ.name v' .expression (.sequence body) p.right
      = p₂.right.cons (.symbol "begin") b' := by
    rw [Store.loadReplacing_sequence, hb']
  refine ⟨_, ((hp.grows_consLeft _).trans hle₂).trans hle₃, hp₄.consRight _, ?_, ?_, ?_⟩
  · exact congrArg Prod.snd hload
  · exact congrArg Prod.snd hload'
  · have hformals := (hle₂.trans hle₃).leftCode p.left.cells.size (.inr rfl)
    have hoperands := hle₄.leftCode p₂.left.cells.size (.inr rfl)
    dsimp only
    rw [hload, hload']
    exact .intro Array.getElem?_push_size (hoperands.2.trans Array.getElem?_push_size)
      (hformals.2.trans Array.getElem?_push_size) Array.getElem?_push_size (hbodies'.mono hle₃)
      (hproper'.mono hle₃)

/-! ### Side by side -/

/-- From machines with the two stores, the computation on the left is nested
too deeply, or both end alike. -/
def TalliesUnlessDeep (p : Twins σ) (x : Eval α) (y : Eval β) (Q : Twins σ → α → β → Prop) :
    Prop :=
  ∀ m m', Beside p m m' → (∃ k, x m = .error .tooDeep k) ∨ Ends p Q (x m) (y m')

namespace TalliesUnlessDeep

variable {γ δ : Type} {x : Eval α} {y : Eval β} {Q : Twins σ → α → β → Prop}
  {Q' : Twins σ → γ → δ → Prop}

theorem of_lawful (h : p.Lawful → TalliesUnlessDeep p x y Q) : TalliesUnlessDeep p x y Q :=
  fun m m' hat => h hat.lawful m m' hat

theorem of_tallies (h : Tallies p x y Q) : TalliesUnlessDeep p x y Q :=
  fun m m' hat => .inr (h m m' hat)

protected theorem bind {f : α → Eval γ} {g : β → Eval δ} (hx : Tallies p x y Q)
    (hf : ∀ p', p ≤ p' → ∀ a b, Q p' a b → TalliesUnlessDeep p' (f a) (g b) Q') :
    TalliesUnlessDeep p (x >>= f) (y >>= g) Q' := by
  intro m m' hat
  have hends := hx m m' hat
  rw [bind_run, bind_run]
  generalize x m = result, y m' = result' at hends ⊢
  cases hends with
  | ok later here holds => exact (hf _ later _ _ holds _ _ here).imp id (Ends.mono later)
  | error later here => exact .inr (.error later here)

/-- The computation on the left is ahead. -/
theorem enter {a : α} {f : α → Eval γ} {z : Eval δ} (hx : p.Enters x a p₁)
    (hf : TalliesUnlessDeep p₁ (f a) z Q') : TalliesUnlessDeep p (x >>= f) z Q' := by
  intro m m' hat
  rcases hx.run m hat.left with ⟨k, hdeep⟩ | ⟨k, hk, hleft, hjournal⟩
  · exact .inl ⟨k, bind_run_error hdeep⟩
  · rw [bind_run_ok hk]
    have hat₁ : Beside p₁ k m' :=
      ⟨hleft, hat.right.trans hx.right.symm, hx.lawful, hjournal.trans hat.journals⟩
    exact (hf k m' hat₁).imp id (Ends.mono hx.later)

theorem congr {x' : Eval α} {y' : Eval β} (h : TalliesUnlessDeep p x' y' Q)
    (hx : ∀ m, m.store = p.left → x m = x' m) (hy : ∀ m, m.store = p.right → y m = y' m) :
    TalliesUnlessDeep p x y Q := by
  intro m m' hat
  rw [hx m hat.left, hy m' hat.right]
  exact h m m' hat

end TalliesUnlessDeep

/-- Proper lists of code are proper on both sides. -/
theorem Proper.spines (hp : p.Lawful) {hidden : Bool} {v v' : Value} (hv : p.Proper v)
    (h : p.Matches hidden .operands v v') :
    ∃ items items', p.left.Spine v items .nil ∧ p.right.Spine v' items' .nil := by
  obtain ⟨proper, hspine⟩ := hv.spine
  obtain ⟨last, last', items, items', hchains⟩ := h.chains
  obtain ⟨rfl, rfl⟩ := hchains.spine.unique hspine
  obtain rfl := (hp.eq_atom_iff hchains.ends (a := .nil) trivial).mp rfl
  exact ⟨_, items', hspine, hchains.spine'⟩

/-- The procedure runs its body in the hidden frame, where the name has the
value that the body on the right has in it. -/
theorem tallies_procedure {v v' : Value} (hknown : σ.values = some (v, v'))
    (hscope : p.Scope false e e') (depth : Nat) (fn : Value) {body body' : Value} {r : Ref}
    (formals : p.left.cells[r]? = some ⟨.symbol σ.name, .nil⟩)
    (bodies : p.Matches true .operands body body') :
    TalliesUnlessDeep p (applyClosure depth (evaluate depth) fn ⟨.pair r, body, e⟩ [v])
      (evalSequence (evaluate depth) e' body') LikeResults := by
  refine .of_lawful fun hp => ?_
  have hframe := hp.enters_extend hknown depth e formals
  have hinside : (p.hide v e).Scope true p.left.frames.size e' :=
    .hidden (p := p.hide v e) (.inr rfl) Array.getElem?_push_size rfl (hscope.mono hframe.later)
  exact .enter hframe (.enter (.note hframe.lawful _) (.of_tallies
    (tallies_evalSequence (tallies_evaluate σ depth) hinside (bodies.mono hframe.later))))

/-- The procedure, once it is made, does what the body with the value in it
does. -/
theorem LikeBodies.tallies {v v' : Value} (hknown : σ.values = some (v, v'))
    (hscope : p.Scope false e e') {expr expr' : Value} (h : p.LikeBodies expr expr') (depth : Nat) :
    TalliesUnlessDeep p (evaluate depth e expr >>= fun fn => apply depth fn [v])
      (evaluate (depth + 1) e' expr') LikeResults := by
  cases depth with
  | zero => exact fun m m' _ => .inl ⟨m, rfl⟩
  | succ depth =>
      refine .of_lawful fun hp => ?_
      cases h with
      | @intro r r₁ r₂ q body body' lambda operands formals sequence bodies proper =>
          obtain ⟨items, items', hspine, hspine'⟩ := proper.spines hp bodies
          have hclosure := (hp.enters_makeClosure depth e (.pair r₂) body).of_run fun m hm =>
            evaluate_lambda depth e (hm ▸ lambda) (hm ▸ operands) (hm ▸ hspine)
          have hbodies := tallies_procedure hknown (hscope.mono hclosure.later) (depth + 1)
            (.closure p.left.closures.size) formals (bodies.mono hclosure.later)
          refine .enter hclosure (hbodies.congr (fun m hm => ?_) fun m hm => ?_)
          · have hmade : m.store.closures[p.left.closures.size]? = some ⟨.pair r₂, body, e⟩ :=
              hm ▸ Array.getElem?_push_size
            show ((inquire fun s => s.closures[p.left.closures.size]?) >>= _) m = _
            rw [inquire_bind_run, hmade]
          · exact evaluate_begin (depth + 1) e' (hm ▸ sequence) (hm ▸ hspine')

/-- A procedure of one parameter does what its body does with the value in the
place of the parameter. -/
theorem tallies_substitution {v v' : Value} (hknown : σ.values = some (v, v'))
    (hscope : p.Scope false e e') {body : List Datum}
    (hproper : ∀ d ∈ body, d.callsProper .expression = true)
    (hassigns : ∀ d ∈ body, d.assigns σ.name .expression = false) (depth : Nat) :
    TalliesUnlessDeep p (applyAbstraction depth e σ.name body v)
      (evaluateReplaced (depth + 1) e' σ.name body v') LikeResults := by
  refine .of_lawful fun hp => ?_
  exact .bind (hp.load_bodies hknown hproper hassigns).tallies fun p₁ hle₁ expr expr' h =>
    h.tallies hknown (hscope.mono hle₁) depth

end Twins

/-! ### Moments -/

theorem sound_of_attains {primitives : List Primitive} {placeholders : List String}
    {journal : Option (List Event)} {c : Configuration}
    (h : (Configuration.global primitives placeholders journal).Attains c) :
    c.machine.store.Sound := by
  have hsound := (sound_makeGlobal (m := ⟨{}, journal⟩) .empty primitives placeholders).1
  rw [Configuration.global] at h
  generalize outcome (makeGlobal primitives placeholders ⟨{}, journal⟩) = m at h hsound
  have hobeys : SoundWorld.confinement.discipline.Obeys ⟨m.store, hsound⟩ (.rest m []) :=
    ⟨rfl, SoundWorld.confinement.discipline.atom trivial, fun _ ht => absurd ht List.not_mem_nil,
      trivial⟩
  obtain ⟨w, -, hlater⟩ := Configuration.reaches_of_attains (fun _ _ hlt => hlt) hobeys h
  rw [← show w.store = c.machine.store from hlater.store]
  exact w.sound

/-- **The substitution law.** At any moment of a run of source texts that
starts with a global frame, let `env` be a frame, `v` a value that is there and
is no pair of code (programs hold no such pairs, see
`MiniScheme.Proofs.CodeSeparation`), and `body` expressions in which calls have
proper lists of operands and nothing assigns the variable `name`, unless it is
quoted or an inner `lambda` has a parameter of that name.

Make the procedure `(lambda (name) body ...)` in that frame and apply it to the
value; or evaluate in that frame `(begin body ...)`, with `(quote v)` for each
occurrence of the name that is evaluated and refers to the parameter. If
neither run is nested too deeply, both have the same reply, a written value or
a fault, and leave the same written value in every variable seen from that
frame. -/
theorem substitution_law (primitives : List Primitive) (placeholders : List String)
    (journal : Option (List Event)) (c : Configuration)
    (h : (Configuration.global primitives placeholders journal).Attains c)
    (env : Ref) (henv : env < c.machine.store.frames.size)
    (v : Value) (hv : c.machine.store.HasValue v) (hdatum : ∀ r, v = .pair r → ¬ c.IsCode r)
    (name : String) (body : List Datum)
    (hproper : ∀ d ∈ body, d.callsProper .expression = true)
    (hassigns : ∀ d ∈ body, d.assigns name .expression = false)
    (depth depth' shown : Nat)
    (happlied : ∀ k, applyAbstraction depth env name body v c.machine ≠ .error .tooDeep k)
    (hreplaced : ∀ k, evaluateReplaced depth' env name body v c.machine ≠ .error .tooDeep k) :
    let applied := applyAbstraction depth env name body v c.machine
    let replaced := evaluateReplaced depth' env name body v c.machine
    reply shown applied = reply shown replaced ∧
    ∀ other,
      ((outcome applied).store.lookup? env other).map ((outcome applied).store.write shown)
        = ((outcome replaced).store.lookup? env other).map
            ((outcome replaced).store.write shown) := by
  obtain ⟨w₀, hcode⟩ := Configuration.exists_obeys_global primitives placeholders journal
  obtain ⟨w, -, hobeys⟩ := Configuration.reaches_of_attains (fun _ _ _ => trivial) hcode h
  have hstore : w.store = c.machine.store := hobeys.store
  obtain ⟨refs, hchain⟩ := (rooted_of_attains h).frames env henv
  have hsound := sound_of_attains h
  have hrooted := rooted_of_attains h
  rw [← hstore] at hv hchain hsound hrooted
  have hplays : w.Plays .datum v := by
    rintro r rfl
    have hlt : r < w.store.cells.size := hv (.cell r) rfl
    refine ⟨hlt, ?_⟩
    by_contra hrole
    exact hdatum r rfl ((Configuration.isCode_iff hobeys).mpr ⟨hlt, hrole⟩)
  -- The store beside itself, where the name is secret and has this value.
  have hlawful : (selfTwins ⟨name, some (v, v)⟩ w).Lawful :=
    CodeWorld.lawful_selfTwins hsound hrooted rfl hv hplays
  have hat : Beside (selfTwins ⟨name, some (v, v)⟩ w) c.machine c.machine :=
    ⟨hstore.symm, hstore.symm, hlawful, rfl⟩
  have hscope : (selfTwins ⟨name, some (v, v)⟩ w).Scope false env env :=
    CodeWorld.scope_selfTwins hchain
  -- Under limits that go together, both runs are what they were.
  have hleft := (outlasts_applyAbstraction depth depth' env name body v).eq_of_ne happlied
  have hright := (outlasts_evaluateReplaced depth' (depth + 1) env name body v).eq_of_ne hreplaced
  have hlimits : depth' + (depth + 1) = depth + depth' + 1 := by omega
  rw [hlimits] at hright
  have hends := (Twins.tallies_substitution rfl hscope hproper hassigns (depth + depth')
    c.machine c.machine hat).resolve_left fun ⟨k, hk⟩ => happlied k (hleft.symm.trans hk)
  rw [hleft, hright] at hends
  refine ⟨Twins.reply_eq_of_ends hends shown, fun other => ?_⟩
  obtain ⟨p, hle, hlast⟩ := hends.exists_beside
  rw [hlast.left, hlast.right]
  exact hlast.lawful.written_eq (hscope.mono hle) (fun h => absurd h Bool.false_ne_true) shown

/-- A program that makes a procedure. -/
def closureProgram : String := "(set! it (lambda (y) (cons y it)))"

/-- A body that calls `f`, quotes it, and has a procedure with a parameter of
that name. -/
def callingBody : List Datum :=
  (read 20 "(set! it (cons f (f 1))) ((lambda (f . g) (set! it (cons f (cons g it)))) 'f f)").1

/-- That body, as the body of a procedure that is applied to the procedure of
the program. -/
theorem substitution_law_closure :
    ∃ c : Configuration, (Configuration.global standardPrimitives ["it"] none).Attains c ∧
      (reply 20 (applyAbstraction 20 0 "f" callingBody (.closure 0) c.machine)).isOk = true ∧
      reply 20 (applyAbstraction 20 0 "f" callingBody (.closure 0) c.machine)
        = reply 20 (evaluateReplaced 20 0 "f" callingBody (.closure 0) c.machine) := by
  obtain ⟨c, hattains, -, hmachine⟩ := Configuration.exists_attains_run
    (c := Configuration.global standardPrimitives ["it"] none) rfl 20 0 closureProgram
    (by decide +kernel)
  have hframes : 0 < c.machine.store.frames.size := by
    rw [hmachine]
    decide +kernel
  have hclosures : 0 < c.machine.store.closures.size := by
    rw [hmachine]
    decide +kernel
  have hvalue : c.machine.store.HasValue (.closure 0) := by
    rintro _ ⟨⟩
    exact hclosures
  have hbody : (callingBody.all fun d =>
      d.callsProper .expression && !d.assigns "f" .expression) = true := by
    decide +kernel
  simp only [List.all_eq_true, Bool.and_eq_true, Bool.not_eq_true'] at hbody
  have happlied : (reply 20 (applyAbstraction 20 0 "f" callingBody (.closure 0) c.machine)).isOk
      = true := by
    rw [hmachine]
    decide +kernel
  have hreplaced : (reply 20 (evaluateReplaced 20 0 "f" callingBody (.closure 0) c.machine)).isOk
      = true := by
    rw [hmachine]
    decide +kernel
  have hlaw := substitution_law standardPrimitives ["it"] none c hattains 0 hframes (.closure 0)
    hvalue (by rintro r ⟨⟩) "f" callingBody (fun d hd => (hbody d hd).1)
    (fun d hd => (hbody d hd).2) 20 20 20 (fun k hk => by rw [hk] at happlied; cases happlied)
    (fun k hk => by rw [hk] at hreplaced; cases hreplaced)
  exact ⟨c, hattains, happlied, hlaw.1⟩

end MiniScheme
