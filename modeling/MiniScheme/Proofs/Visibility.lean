import MiniScheme.Proofs.FrameStability

/-!
# `MiniScheme.Proofs.Visibility`: who sees an assignment

Closures share the frames they were made in, so many environments lead
through one frame, and a name can be hidden in some of them and visible in
others. The main fact of this file, `assign_visible`, is the whole law of an
assignment: an environment sees the new value of the name exactly if it finds
the name in the same frame as the environment that was assigned in, and
nobody sees any other change.

Its one assumption is that frames end (`Store.Forest`), as those of a run do.
`s.BoundAt name env r` says without the counted walk of `Store.locate?` that
`r` is the innermost frame from `env` with that name; `locate?_eq_some_iff`
says that the two agree. An assignment keeps all names, so it keeps every
`BoundAt`, and what is left is one frame with one new value
(`lookup?_bind`).
-/

set_option autoImplicit false

namespace MiniScheme

namespace Store

/-- Every frame has a finite chain of frames around it. -/
def Forest (s : Store) : Prop := ∀ r < s.frames.size, ∃ refs, s.Chain r refs

/-- The frame at a place has the name among its names. -/
def Names (s : Store) (name : String) (r : Ref) : Prop :=
  ∃ f, s.frames[r]? = some f ∧ name ∈ f.bindings.map Prod.fst

/-- The walk outward from a frame finds a name in this frame first. -/
inductive BoundAt (s : Store) (name : String) : Ref → Ref → Prop
  | here {r : Ref} (names : s.Names name r) : BoundAt s name r r
  | outward {r o q : Ref} {f : Frame} (frame : s.frames[r]? = some f) (outer : f.outer = some o)
      (absent : name ∉ f.bindings.map Prod.fst) (rest : BoundAt s name o q) : BoundAt s name r q

variable {s : Store} {env env' r q : Ref} {refs : List Ref} {name other : String}

/-! ### The frame of a name -/

theorem binds_eq_true_iff : s.binds name r = true ↔ s.Names name r := by
  unfold binds Names
  rw [Option.any_eq_true]
  exact exists_congr fun f => and_congr_right fun _ => binds_iff f name

/-- A name that the frame has is found there. -/
theorem boundAt_iff_of_mem {f : Frame} (hframe : s.frames[env]? = some f)
    (hname : name ∈ f.bindings.map Prod.fst) : s.BoundAt name env r ↔ env = r := by
  constructor
  · intro hbound
    cases hbound with
    | here => rfl
    | outward frame' _ absent =>
        obtain rfl := Option.some.inj (hframe.symm.trans frame')
        exact absurd hname absent
  · rintro rfl
    exact .here ⟨f, hframe, hname⟩

/-- A name that the frame does not have is found in the frames around it. -/
theorem boundAt_iff_of_notMem {f : Frame} (hframe : s.frames[env]? = some f)
    (hname : name ∉ f.bindings.map Prod.fst) :
    s.BoundAt name env r ↔ ∃ o, f.outer = some o ∧ s.BoundAt name o r := by
  constructor
  · intro hbound
    cases hbound with
    | here names =>
        obtain ⟨g, hg, hname'⟩ := names
        obtain rfl := Option.some.inj (hframe.symm.trans hg)
        exact absurd hname' hname
    | outward frame' outer _ rest =>
        obtain rfl := Option.some.inj (hframe.symm.trans frame')
        exact ⟨_, outer, rest⟩
  · rintro ⟨o, houter, hrest⟩
    exact .outward hframe houter hname hrest

/-- Names are found in the innermost frame that has them. -/
theorem locate?_eq_some_iff (h : s.Chain env refs) :
    s.locate? env name = some r ↔ s.BoundAt name env r := by
  induction h with
  | @outermost env f frame outer =>
      rw [locate?_outermost frame outer]
      by_cases hname : name ∈ f.bindings.map Prod.fst
      · rw [if_pos ((binds_iff f name).mpr hname), Option.some_inj, boundAt_iff_of_mem frame hname]
      · rw [if_neg (mt (binds_iff f name).mp hname), boundAt_iff_of_notMem frame hname, outer]
        simp
  | @inner env o f refs frame outer rest ih =>
      rw [locate?_inner frame outer rest]
      by_cases hname : name ∈ f.bindings.map Prod.fst
      · rw [if_pos ((binds_iff f name).mpr hname), Option.some_inj, boundAt_iff_of_mem frame hname]
      · rw [if_neg (mt (binds_iff f name).mp hname), ih, boundAt_iff_of_notMem frame hname, outer]
        simp

/-- A name is not found exactly if no frame of the chain has it. -/
theorem locate?_eq_none_iff (h : s.Chain env refs) :
    s.locate? env name = none ↔ ∀ r ∈ refs, ¬s.Names name r := by
  rw [locate?, h.chain_eq, List.find?_eq_none]
  exact forall₂_congr fun r _ => not_congr binds_eq_true_iff

/-! ### One new value -/

/-- Only the name that is bound has a new value, and only in that frame. -/
theorem valueAt?_bind (s : Store) (r q : Ref) (name other : String) (v : Value)
    (hr : s.Names name r) :
    (s.bind r name v).valueAt? other q
      = if other = name ∧ q = r then some v else s.valueAt? other q := by
  obtain ⟨f, hf, -⟩ := hr
  unfold valueAt?
  by_cases hq : q = r
  · subst hq
    have hframe : (s.bind q name v).frames[q]? = some (f.bind name v) := by
      show (s.frames.modify q _)[q]? = _
      simp [Array.getElem?_modify, hf]
    rw [hframe, hf]
    by_cases hname : other = name
    · rw [if_pos ⟨hname, rfl⟩, hname]
      exact Frame.lookup_insert_self name v f.bindings
    · rw [if_neg fun h => hname h.1]
      exact Frame.lookup_insert_of_ne hname v f.bindings
  · -- All other frames stay as they are.
    have hframe : (s.bind r name v).frames[q]? = s.frames[q]? := by
      show (s.frames.modify r _)[q]? = _
      simp [Array.getElem?_modify, Ne.symm hq]
    rw [hframe, if_neg fun h => hq h.2]

/-- What an environment finds after an assignment in another one. -/
theorem lookup?_bind (v : Value) (hr : s.locate? env name = some r) (hchain : s.Chain env' refs)
    (other : String) :
    (s.bind r name v).lookup? env' other
      = if other = name ∧ s.locate? env' name = some r then some v
        else s.lookup? env' other := by
  have hnames : s.Names name r := binds_of_locate? hr
  -- Names stay where they are, so the same frame is asked as before.
  have hsame : (s.bind r name v).locate? env' other = s.locate? env' other :=
    (framesKept_bind v hr).locate?_eq hchain other
  rw [lookup?, hsame, lookup?]
  cases hfound : s.locate? env' other with
  | none =>
      rw [if_neg]
      · rfl
      · rintro ⟨rfl, hname⟩
        cases hfound.symm.trans hname
  | some q =>
      show (s.bind r name v).valueAt? other q = _
      rw [valueAt?_bind s r q name other v hnames]
      refine if_congr (and_congr_right fun hname => ?_) rfl rfl
      rw [← hname, hfound, Option.some.injEq]

/-- Both environments find the name in the same frame. -/
def SeenAlike (s : Store) (name : String) (env env' : Ref) : Prop :=
  ∃ r, s.BoundAt name env r ∧ s.BoundAt name env' r

end Store

/-! ### Assignments -/

/-- What an action ends in, without the machine that it leaves. -/
def ending {α : Type} : EStateM.Result Fault Machine α → Except Fault α
  | .ok a _ => .ok a
  | .error e _ => .error e

theorem lookup_run (env : Ref) (name : String) (m : Machine) :
    lookup env name m = match m.store.lookup? env name with
      | some v => .ok v m
      | none => .error (.unbound name) m := by
  unfold lookup examine
  dsimp only
  cases m.store.lookup? env name <;> rfl

/-- A successful assignment gives its value and has found the name. -/
theorem assign_eq_ok {env : Ref} {name : String} {v w : Value} {m m' : Machine}
    (h : assign env name v m = .ok w m') :
    w = v ∧ ∃ r, m.store.locate? env name = some r ∧ m'.store = m.store.bind r name v := by
  rcases assign_run env name v m with ⟨r, hr, k, hrun, hstore⟩ | ⟨-, hrun⟩
  · cases hrun.symm.trans h
    exact ⟨rfl, r, hr, hstore⟩
  · cases hrun.symm.trans h

/-- An assignment fails in one way, and only if the name is not found. -/
theorem assign_eq_error_iff {env : Ref} {name : String} {v : Value} {m m' : Machine}
    {fault : Fault} : assign env name v m = .error fault m' ↔
      m.store.locate? env name = none ∧ fault = .unbound name ∧ m' = m := by
  rcases assign_run env name v m with ⟨r, hr, k, hrun, -⟩ | ⟨hnone, hrun⟩
  · simp [hrun, hr]
  · simp [hrun, hnone, eq_comm]

/-- Whoever finds the name in the frame that was assigned in gets the new
value, and in all other cases nothing has changed. -/
theorem lookup_of_assign_eq_ok {m m' : Machine} (hforest : m.store.Forest) {env env' : Ref}
    (henv : env < m.store.frames.size) (henv' : env' < m.store.frames.size) {name : String}
    {v w : Value} (h : assign env name v m = .ok w m') (other : String) :
    (other = name ∧ m.store.SeenAlike name env env' → lookup env' other m' = .ok v m') ∧
    (¬(other = name ∧ m.store.SeenAlike name env env') →
      ending (lookup env' other m') = ending (lookup env' other m)) := by
  obtain ⟨refs, hchain⟩ := hforest env henv
  obtain ⟨refs', hchain'⟩ := hforest env' henv'
  obtain ⟨-, r, hr, hstore⟩ := assign_eq_ok h
  -- A walk finds one frame at most, which is the one that was assigned in.
  have hseen : m.store.SeenAlike name env env' ↔ m.store.locate? env' name = some r := by
    constructor
    · rintro ⟨q, hq, hq'⟩
      rw [← Store.locate?_eq_some_iff hchain, hr] at hq
      obtain rfl := Option.some.inj hq
      exact (Store.locate?_eq_some_iff hchain').mpr hq'
    · intro hr'
      exact ⟨r, (Store.locate?_eq_some_iff hchain).mp hr,
        (Store.locate?_eq_some_iff hchain').mp hr'⟩
  have hlookup := Store.lookup?_bind v hr hchain' other
  rw [hseen, lookup_run, lookup_run, hstore, hlookup]
  constructor
  · intro hcase
    rw [if_pos hcase]
  · intro hcase
    rw [if_neg hcase]
    cases m.store.lookup? env' other <;> rfl

/-- **An assignment is seen exactly where the same binding is visible.** In a
store whose frames end, assigning `name` from `env` fails if and only if no
frame of the chain of `env` has the name; the fault then says so and nothing
has changed. Otherwise it gives the value, and afterwards a name has the new
value in an environment if it is the assigned one and both environments find
it in the same frame. In every other case it has the value that it had, or is
as unbound as it was. -/
theorem assign_visible {m : Machine} (hforest : m.store.Forest) {env : Ref}
    (henv : env < m.store.frames.size) (name : String) (v : Value) :
    ∃ refs, m.store.Chain env refs ∧
      ((∃ fault m', assign env name v m = .error fault m') ↔
        ∀ r ∈ refs, ¬m.store.Names name r) ∧
      (∀ fault m', assign env name v m = .error fault m' → fault = .unbound name ∧ m' = m) ∧
      ∀ w m', assign env name v m = .ok w m' → w = v ∧
        ∀ env' < m.store.frames.size, ∀ other,
          (other = name ∧ m.store.SeenAlike name env env' → lookup env' other m' = .ok v m') ∧
          (¬(other = name ∧ m.store.SeenAlike name env env') →
            ending (lookup env' other m') = ending (lookup env' other m)) := by
  obtain ⟨refs, hchain⟩ := hforest env henv
  refine ⟨refs, hchain, ?_, fun fault m' h => (assign_eq_error_iff.mp h).2,
    fun w m' h => ⟨(assign_eq_ok h).1, fun env' henv' other => ?_⟩⟩
  · rw [← Store.locate?_eq_none_iff hchain]
    constructor
    · rintro ⟨fault, m', h⟩
      exact (assign_eq_error_iff.mp h).1
    · intro hnone
      exact ⟨_, m, assign_eq_error_iff.mpr ⟨hnone, rfl, rfl⟩⟩
  · exact lookup_of_assign_eq_ok hforest henv henv' h other

/-- A global frame with two names and two frames inside it, one of which has
a name of its own that hides a global one. -/
def siblingFrames : Store where
  frames := #[⟨[("x", .nil), ("y", .nil)], none⟩, ⟨[("x", .boolean true)], some 0⟩,
    ⟨[("y", .boolean true)], some 0⟩]

theorem forest_siblingFrames : siblingFrames.Forest := by
  have houtermost : siblingFrames.Chain 0 [0] := .outermost rfl rfl
  intro r hr
  match r, hr with
  | 0, _ => exact ⟨_, houtermost⟩
  | 1, _ => exact ⟨_, .inner rfl rfl houtermost⟩
  | 2, _ => exact ⟨_, .inner rfl rfl houtermost⟩

/-- The global `x`, assigned from the second frame inside, has its new value
there, and the first frame inside keeps its own. -/
theorem assign_visible_siblingFrames :
    siblingFrames.Forest ∧ 2 < siblingFrames.frames.size ∧
    ∃ m', assign 2 "x" (.symbol "z") ⟨siblingFrames, none⟩ = .ok (.symbol "z") m' ∧
      lookup 0 "x" m' = .ok (.symbol "z") m' ∧
      ending (lookup 1 "x" m') = .ok (.boolean true) := by
  refine ⟨forest_siblingFrames, by decide, _, rfl, ?_⟩
  obtain ⟨refs, -, -, -, hok⟩ := assign_visible (m := ⟨siblingFrames, none⟩) forest_siblingFrames
    (show 2 < siblingFrames.frames.size by decide) "x" (.symbol "z")
  obtain ⟨-, hseen⟩ := hok _ _ rfl
  have hglobal : siblingFrames.BoundAt "x" 0 0 := .here ⟨_, rfl, by decide⟩
  have hinner : siblingFrames.BoundAt "x" 2 0 := .outward rfl rfl (by decide) hglobal
  refine ⟨(hseen 0 (by decide) "x").1 ⟨rfl, 0, hinner, hglobal⟩, ?_⟩
  refine ((hseen 1 (by decide) "x").2 ?_).trans rfl
  rintro ⟨-, r, hr, hr'⟩
  have hr₂ := (Store.locate?_eq_some_iff (Store.Chain.inner rfl rfl (.outermost rfl rfl))).mpr hr
  have hr₁ := (Store.locate?_eq_some_iff (Store.Chain.inner rfl rfl (.outermost rfl rfl))).mpr hr'
  cases hr₂.symm.trans ((by decide : siblingFrames.locate? 2 "x" = some 0))
  cases hr₁.symm.trans ((by decide : siblingFrames.locate? 1 "x" = some 1))

end MiniScheme
