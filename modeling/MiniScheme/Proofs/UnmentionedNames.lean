import MiniScheme.Proofs.GlobalFrame
import MiniScheme.Proofs.Pieces
import MiniScheme.Proofs.SyntaxTree
import MiniScheme.Proofs.TwinEvaluation
import MiniScheme.Proofs.TwinLoading

/-!
# `MiniScheme.Proofs.UnmentionedNames`: names that a program does not mention

Source texts that do not mention a name run in two global frames, one of which
binds that name as a placeholder behind all else. That may add a name to the
frame, or hide a primitive from view. The texts cannot tell: the answers and
all other variables are the same. The primitives may be any functions of the
host that treat references uniformly (`Uniform`).

The two stores correspond at the start, in hidden mode for the name and with
the global frame blurred (`blurredTwins`). Texts that do not mention the name
are code for hidden mode (`Twins.load_code`), so the runs end alike.
-/

set_option autoImplicit false

namespace MiniScheme

/-! ### Answers -/

/-- The answers to source texts that are run one after the other, each the
written value or the fault, and the machine that is left. -/
def answers {F : Type} [HostFunctions F] (depth shown : Nat) (env : Ref) :
    List String → Machine F → List Reply × Machine F
  | [], m => ([], m)
  | source :: sources, m =>
    let result := run depth env source m
    let (rest, last) := answers depth shown env sources (outcome result)
    (reply shown result :: rest, last)

namespace Twins

variable {σ : Secret} {F : Type} [HostFunctions F] {p : Twins σ F} {hidden : Bool} {e e' : Ref}

theorem tallies_evalData (depth : Nat) {data : List Datum}
    (hdata : ∀ d ∈ data, hidden = true → d.mentions σ.name = false) :
    ∀ {p : Twins σ F} {result result' : Value}, p.Scope hidden e e' → p.LikeData result result' →
      Tallies p (evalData depth e result data) (evalData depth e' result' data) LikeResults := by
  induction data with
  | nil => exact fun _ hresult => .pure hresult
  | cons d data ih =>
      intro p result result' hscope _
      refine .of_lawful fun hp => ?_
      have hload : Tallies p (load d) (load d) (LikeCode hidden .expression) :=
        (load_code d (hdata d List.mem_cons_self) .expression p hp).tallies
      refine hload.bind fun p₁ hle₁ expr expr' hexpr => ?_
      refine (tallies_evaluate σ depth p₁ hidden e e' expr expr' (hscope.mono hle₁) hexpr.2).bind
        fun p₂ hle₂ v v' hv => ?_
      exact ih (fun d hd => hdata d (List.mem_cons_of_mem _ hd)) (hscope.mono (hle₁.trans hle₂)) hv

/-- A text is run alike on both sides, unless it mentions the secret name where
that has to be avoided. -/
theorem tallies_run (depth : Nat) (hscope : p.Scope hidden e e') {source : String}
    (hsource : ∀ d ∈ (read depth source).1, hidden = true → d.mentions σ.name = false) :
    Tallies p (run depth e source) (run depth e' source) LikeResults := by
  obtain ⟨data, fault, hread⟩ : ∃ data fault, read depth source = (data, fault) := ⟨_, _, rfl⟩
  rw [hread] at hsource
  rw [run_eq hread, run_eq hread]
  refine (tallies_evalData depth hsource hscope (.atom (v := .emptySequence) trivial)).bind
    fun p₁ hle₁ v v' hv => ?_
  cases fault with
  | none => exact .pure hv
  | some f => exact .throw f

/-- Texts have the same answers on both sides, and leave machines that
correspond. -/
theorem answers_eq (depth shown : Nat) {sources : List String}
    (hsources : ∀ source ∈ sources, ∀ d ∈ (read depth source).1, hidden = true →
      d.mentions σ.name = false) :
    ∀ {p : Twins σ F} {m m' : Machine F}, p.Scope hidden e e' → Beside p m m' →
      (answers depth shown e sources m).1 = (answers depth shown e' sources m').1 ∧
      ∃ p', p ≤ p' ∧
        Beside p' (answers depth shown e sources m).2 (answers depth shown e' sources m').2 := by
  induction sources with
  | nil => exact fun {p m m'} _ hat => ⟨rfl, p, le_refl p, hat⟩
  | cons source sources ih =>
      intro p m m' hscope hat
      have hends := tallies_run depth hscope (hsources source List.mem_cons_self) m m' hat
      obtain ⟨p₁, hle₁, hat₁⟩ := hends.exists_beside
      obtain ⟨hsame, p₂, hle₂, hlast⟩ :=
        ih (fun source hsource => hsources source (List.mem_cons_of_mem _ hsource))
          (hscope.mono hle₁) hat₁
      exact ⟨congrArg₂ List.cons (reply_eq_of_ends hends shown) hsame, p₂, hle₁.trans hle₂, hlast⟩

end Twins

/-! ### Two global frames -/

/-- A loop that changes the store by turns. -/
theorem forIn_run {F α : Type} {body : α → PUnit → EvalOn F (ForInStep PUnit)}
    {f : Store F → α → Store F}
    (hbody : ∀ a s journal, body a ⟨⟩ ⟨s, journal⟩ = .ok (.yield ⟨⟩) ⟨f s a, journal⟩)
    (items : List α) : ∀ s journal,
      forIn items PUnit.unit body ⟨s, journal⟩ = .ok ⟨⟩ ⟨items.foldl f s, journal⟩ := by
  induction items with
  | nil => intro s journal; rfl
  | cons a items ih =>
      intro s journal
      rw [List.forIn_cons, bind_run_ok (hbody a s journal)]
      exact ih _ _

/-- The store with a global frame, where primitives are bound and then
placeholders. -/
def Store.withGlobal {F : Type} (s : Store F) (primitives : List (Primitive F))
    (placeholders : List String) : Store F :=
  let env := s.frames.size
  let bound := primitives.foldl
    (fun s p => (s.newPrimitive p).2.bind env p.name (s.newPrimitive p).1)
    (s.newFrame ⟨[], none⟩).2
  placeholders.foldl (fun s name => s.bind env name placeholder) bound

/-- What a new global frame is made by, and that it is noted in the journal. -/
theorem makeGlobal_store {F : Type} (primitives : List (Primitive F)) (placeholders : List String)
    (m : Machine F) :
    ∃ journal, journal.isSome = m.journal.isSome ∧
      makeGlobal primitives placeholders m
        = .ok m.store.frames.size ⟨m.store.withGlobal primitives placeholders, journal⟩ := by
  obtain ⟨s, journal⟩ := m
  unfold makeGlobal
  rw [bind_run_ok (show (change fun s => s.newFrame ⟨[], none⟩) ⟨s, journal⟩
    = .ok s.frames.size ⟨(s.newFrame ⟨[], none⟩).2, journal⟩ from rfl)]
  dsimp only
  rw [bind_run_ok (forIn_run (f := fun t (p : Primitive F) =>
      (t.newPrimitive p).2.bind s.frames.size p.name (t.newPrimitive p).1)
    (fun _ _ _ => rfl) primitives _ journal)]
  rw [bind_run_ok (forIn_run (f := fun t name => t.bind s.frames.size name placeholder)
    (fun _ _ _ => rfl) placeholders _ journal)]
  cases journal with
  | none => exact ⟨none, rfl, rfl⟩
  | some events => exact ⟨some (_ :: events), rfl, rfl⟩

/-- One more placeholder is bound behind all others. -/
theorem Store.withGlobal_append {F : Type} (s : Store F) (primitives : List (Primitive F))
    (placeholders : List String) (name : String) :
    s.withGlobal primitives (placeholders ++ [name])
      = (s.withGlobal primitives placeholders).bind s.frames.size name placeholder := by
  simp [withGlobal, List.foldl_append]

/-- The two stores with a global frame, which may disagree on the name. -/
def blurredTwins {F : Type} (s : Store F) (name : String) : Twins ⟨name, none⟩ F where
  left := s
  right := s.bind 0 name placeholder
  cells _ _ := False
  vectors _ _ := False
  closures _ _ := False
  frames blurred r q := blurred = true ∧ r = 0 ∧ q = 0
  hidden _ := False
  leftCode _ := False
  rightCode _ := False

theorem lawful_blurredTwins {F : Type} [HostFunctions F] {s : Store F}
    (h : Store.GlobalAdded {} s)
    (hhosts : ∀ primitive ∈ s.primitives, Uniform true primitive.operation) (name : String) :
    (blurredTwins s name).Lawful := by
  obtain ⟨bindings, hframes, hvalues⟩ := h.frames
  have hframe : s.frames[0]? = some ⟨bindings, none⟩ := by simp [hframes]
  have hbound : (s.bind 0 name placeholder).frames[0]?
      = some ((⟨bindings, none⟩ : Frame).bind name placeholder) := by
    simp [Store.bind, Array.getElem?_modify, hframe]
  -- A global frame holds placeholders and primitives, which are the same on both sides.
  have hself {v : Value} (hv : v = placeholder ∨ ∃ r, v = .primitive r ∧
      ({} : Store F).primitives.size ≤ r ∧ r < s.primitives.size) :
      (blurredTwins s name).LikeData v v := by
    rcases hv with rfl | ⟨r, rfl, -⟩
    · exact .atom (v := placeholder) trivial
    · exact ⟨.primitive r, by rintro q ⟨⟩⟩
  have hnone : Relator.BiUnique fun _ _ : Ref => False :=
    ⟨fun _ _ _ => False.elim, fun _ _ _ => False.elim⟩
  exact {
    cell := fun _ _ => False.elim
    code := fun _ _ => False.elim
    leftCode := fun _ => False.elim
    rightCode := fun _ => False.elim
    vector := fun _ _ => False.elim
    formals := fun _ _ => False.elim
    closure := fun _ _ => False.elim
    frame := by
      rintro _ _ _ ⟨rfl, rfl, rfl⟩
      refine ⟨_, _, hframe, hbound, fun other hother => ?_⟩
      rw [Twins.value?_bind, if_neg (hother rfl)]
      cases hvalue : (⟨bindings, none⟩ : Frame).value? other with
      | none => exact .none
      | some v => exact .some (hself (hvalues _ (Frame.mem_of_value? hvalue)))
    blurred := fun _ _ _ => rfl
    hidden := fun _ => False.elim
    secret := by rintro v v' ⟨⟩
    cells_unique := hnone
    vectors_unique := hnone
    closures_unique := hnone
    frames_unique := by
      constructor
      · rintro r r' q ⟨_, _, rfl, -⟩ ⟨_, _, rfl, -⟩
        rfl
      · rintro r q q' ⟨_, _, -, rfl⟩ ⟨_, _, -, rfl⟩
        rfl
    primitives := rfl
    strings := rfl
    hosts := hhosts }

theorem scope_blurredTwins {F : Type} {s : Store F} (h : Store.GlobalAdded {} s) (name : String) :
    (blurredTwins s name).Scope true 0 0 := by
  obtain ⟨bindings, hframes, -⟩ := h.frames
  have hframe : s.frames[0]? = some ⟨bindings, none⟩ := by simp [hframes]
  have hbound : (s.bind 0 name placeholder).frames[0]?
      = some ((⟨bindings, none⟩ : Frame).bind name placeholder) := by
    simp [Store.bind, Array.getElem?_modify, hframe]
  exact .outermost ⟨rfl, rfl, rfl⟩ hframe hbound rfl rfl

/-- From two such stores, texts that do not mention the name run alike. -/
theorem answers_blurredTwins {F : Type} [HostFunctions F] {s : Store F}
    (h : Store.GlobalAdded {} s)
    (hhosts : ∀ primitive ∈ s.primitives, Uniform true primitive.operation) (name : String)
    {journal journal' : Option (List Event)} (hjournal : journal.isSome = journal'.isSome)
    (depth shown : Nat) {sources : List String}
    (hsources : ∀ source ∈ sources, ∀ d ∈ (read depth source).1, d.mentions name = false) :
    let result := answers depth shown 0 sources ⟨s, journal⟩
    let result' := answers depth shown 0 sources ⟨s.bind 0 name placeholder, journal'⟩
    result.1 = result'.1 ∧
    ∀ other, other ≠ name →
      (result.2.store.lookup? 0 other).map (result.2.store.write shown)
        = (result'.2.store.lookup? 0 other).map (result'.2.store.write shown) := by
  have hat : Beside (blurredTwins s name) ⟨s, journal⟩ ⟨s.bind 0 name placeholder, journal'⟩ :=
    ⟨rfl, rfl, lawful_blurredTwins h hhosts name, hjournal⟩
  have hscope := scope_blurredTwins h name
  obtain ⟨hsame, p, hle, hlast⟩ := Twins.answers_eq depth shown
    (fun source hsource d hd _ => hsources source hsource d hd) hscope hat
  refine ⟨hsame, fun other hother => ?_⟩
  rw [hlast.left, hlast.right]
  exact hlast.lawful.written_eq (hscope.mono hle) (fun _ => hother) shown

/-- **A name that a program does not mention cannot influence it.** Let two
global frames be made of the same primitives and placeholders, the second one
with one more placeholder behind them, of any name. The primitives are functions
of the host, of any kind, that treat references uniformly. Source texts in which
that symbol does not occur, run one after the other, have the same answers in
both, written values and faults, and leave the same written value in every
variable of another name. -/
theorem unmentioned_name_irrelevant {F : Type} [HostFunctions F] (primitives : List (Primitive F))
    (hhosts : ∀ primitive ∈ primitives, Uniform true primitive.operation)
    (placeholders : List String) (name : String) (journal : Option (List Event))
    (depth shown : Nat) (sources : List String)
    (h : ∀ source ∈ sources, ∀ d ∈ (read depth source).1, d.mentions name = false) :
    ∃ m m', makeGlobal primitives placeholders ⟨{}, journal⟩ = .ok 0 m ∧
      makeGlobal primitives (placeholders ++ [name]) ⟨{}, journal⟩ = .ok 0 m' ∧
      let result := answers depth shown 0 sources m
      let result' := answers depth shown 0 sources m'
      result.1 = result'.1 ∧
      ∀ other, other ≠ name →
        (result.2.store.lookup? 0 other).map (result.2.store.write shown)
          = (result'.2.store.lookup? 0 other).map (result'.2.store.write shown) := by
  obtain ⟨k, hspec, hadded, hprimitives⟩ := makeGlobal_spec primitives placeholders ⟨{}, journal⟩
  obtain ⟨events, hevents, hrun⟩ := makeGlobal_store primitives placeholders ⟨{}, journal⟩
  obtain ⟨events', hevents', hrun'⟩ :=
    makeGlobal_store primitives (placeholders ++ [name]) ⟨{}, journal⟩
  obtain rfl := (EStateM.Result.ok.inj (hrun.symm.trans hspec)).2
  refine ⟨_, _, hrun, hrun', ?_⟩
  rw [Store.withGlobal_append]
  refine answers_blurredTwins hadded (fun primitive hmem => hhosts primitive ?_) name
    (hevents.trans hevents'.symm) depth shown h
  exact (hprimitives primitive hmem).resolve_left (by simp)

/-- The functions of a registry that has two of its own beside built-in
ones. -/
inductive Registered where
  | builtIn (op : Operation)
  /-- Twice a number. -/
  | double
  /-- The first element of a vector. -/
  | first

/-- The first element of a vector that has one. -/
def firstElement {F : Type} (depth : Nat) (v : Value) : EvalOn F Value := do
  match v with
  | .vector r =>
    match ← inquire fun s => s.vectors[r]? with
    | some (first :: _) => return first
    | _ => failShowing depth .notCallable v
  | v => failShowing depth .notCallable v

/-- A function of one argument, which refuses rows of others. -/
def unary {F : Type} (f : Value → EvalOn F Value) : List Value → EvalOn F Value
  | [v] => f v
  | args => throw (.operandCount .mul args.length)

instance : HostFunctions Registered where
  run depth
    | .builtIn op, args => op.run depth args
    | .double, args =>
      unary (fun v => Operation.arithmetic depth .mul Number.mul v (.number (.int 2))) args
    | .first, args => unary (firstElement depth) args

theorem tallies_unary {F : Type} {p : Correspondence true F} {f : Value → EvalOn F Value}
    (hf : ∀ v v', p.LikeData v v' → Tallies p (f v) (f v') Correspondence.LikeData)
    {args args' : List Value} (h : List.Forall₂ p.LikeData args args') :
    Tallies p (unary f args) (unary f args') Correspondence.LikeData := by
  cases h with
  | nil => exact .throw _
  | cons hv h =>
      cases h with
      | nil => exact hf _ _ hv
      | cons _ h =>
          simp only [unary, List.length_cons, h.length_eq]
          exact .throw _

/-- Vectors may be opened, so what they hold is data. -/
theorem tallies_firstElement {F : Type} {p : Correspondence true F} (depth : Nat) {v v' : Value}
    (hv : p.LikeData v v') :
    Tallies p (firstElement depth v) (firstElement depth v') Correspondence.LikeData := by
  refine .of_lawful fun hp => ?_
  obtain ⟨like, -⟩ := hv
  cases like with
  | @vector r q twin =>
      obtain ⟨items, items', hitems, hitems', -, hdata⟩ := hp.vector r q twin
      refine Correspondence.tallies_inquire_bind ?_
      rw [hitems, hitems']
      cases hdata rfl with
      | nil => exact tallies_failShowing depth _ (.vector twin)
      | cons hfirst _ => exact .pure hfirst
  | @atom v simple =>
      cases v with
      | vector => exact simple.elim
      | _ => exact tallies_failShowing depth _ (.atom simple)
  | pair twin => exact tallies_failShowing depth _ (.pair twin)
  | closure twin => exact tallies_failShowing depth _ (.closure twin)
  | primitive r => exact tallies_failShowing depth _ (.primitive r)

theorem Registered.uniform (f : Registered) : Uniform true f := by
  intro depth p args args' h
  cases f with
  | builtIn op => exact Correspondence.tallies_operation depth op h
  | double =>
      exact tallies_unary (fun _ _ hv => Correspondence.tallies_arithmetic depth _ _ hv
        (.atom (v := .number (.int 2)) trivial)) h
  | first => exact tallies_unary (fun _ _ hv => tallies_firstElement depth hv) h

/-- `double` and `first`, and all built-in operations. -/
def registry : List (Primitive Registered) :=
  ⟨"double", 1, .double⟩ :: ⟨"first", 1, .first⟩ ::
    Operation.all.map fun op => ⟨op.name, op.arity, .builtIn op⟩

/-- Texts that use `double`, `first` and `cdr`, and not `car`. -/
def textsWithoutCar : List String :=
  ["(set! it (lambda (x . y) (if x (cdr '(1 2)) (begin z))))", "(it (double 21))",
    "(set-cdr! (first #((1 2))) it)", "(it #f)"]

/-- They run the same if `car` is no primitive any more. -/
theorem unmentioned_name_irrelevant_double :
    (∀ primitive ∈ registry, Uniform true primitive.operation) ∧
    (∀ source ∈ textsWithoutCar, ∀ d ∈ (read 50 source).1, d.mentions "car" = false) ∧
    ∃ m m', makeGlobal registry ["it"] ⟨{}, none⟩ = .ok 0 m ∧
      makeGlobal registry (["it"] ++ ["car"]) ⟨{}, none⟩ = .ok 0 m' ∧
      (answers 50 50 0 textsWithoutCar m).1 = (answers 50 50 0 textsWithoutCar m').1 := by
  have hread : (textsWithoutCar.all fun source =>
      (read 50 source).1.all fun d => !d.mentions "car") = true := by
    decide +kernel
  have hsources : ∀ source ∈ textsWithoutCar, ∀ d ∈ (read 50 source).1,
      d.mentions "car" = false := by
    simpa only [List.all_eq_true, Bool.not_eq_true'] using hread
  have hhosts : ∀ primitive ∈ registry, Uniform true primitive.operation :=
    fun primitive _ => primitive.operation.uniform
  obtain ⟨m, m', hm, hm', hsame, -⟩ := unmentioned_name_irrelevant registry hhosts ["it"] "car"
    none 50 50 textsWithoutCar hsources
  exact ⟨hhosts, hsources, m, m', hm, hm', hsame⟩

end MiniScheme
