import Mathlib.Data.List.Find
import MiniScheme.Proofs.Discipline
import MiniScheme.Proofs.GlobalFrame
import MiniScheme.Proofs.Loading

/-!
# `MiniScheme.Proofs.FrameStability`: frames keep their names

A run changes the values of names and makes new frames. It never adds a
name to a frame that is there, takes one away, or puts a frame inside
another one. `Store.FramesKept` says so for two stores.

Frames lie inside each other, and lookup walks outward along that chain.
`s.Chain r refs` says that the walk from the frame `r` passes the frames
`refs` and ends at one that has none around it. A store where every frame
has such a chain, and every closure a frame, is `Store.Rooted`.

`frames_stable` states both for every evaluation and every application.
Since names and chains stay, so does the frame where a name is found, and
whether it is bound at all (`FramesKept.locate?_eq`).
-/

set_option autoImplicit false

namespace MiniScheme

namespace Store

variable {F : Type}

/-! ### Kept frames -/

/-- Every frame of the first store is in the second, with the same names in
the same order and inside the same frame. -/
def FramesKept (s t : Store F) : Prop :=
  ∀ (r : Ref) (f : Frame), s.frames[r]? = some f → ∃ g, t.frames[r]? = some g ∧
    g.bindings.map Prod.fst = f.bindings.map Prod.fst ∧ g.outer = f.outer

namespace FramesKept

theorem of_eq {s t : Store F} (h : t.frames = s.frames) : FramesKept s t :=
  fun _ f hf => ⟨f, h ▸ hf, rfl, rfl⟩

protected theorem trans {s t u : Store F} (h : FramesKept s t) (k : FramesKept t u) :
    FramesKept s u := by
  intro r f hf
  obtain ⟨g, hg, hnames, houter⟩ := h r f hf
  obtain ⟨g', hg', hnames', houter'⟩ := k r g hg
  exact ⟨g', hg', hnames'.trans hnames, houter'.trans houter⟩

theorem size_le {s t : Store F} (h : FramesKept s t) : s.frames.size ≤ t.frames.size := by
  by_contra hlt
  obtain ⟨f, hf⟩ : ∃ f, s.frames[t.frames.size]? = some f :=
    ⟨_, Array.getElem?_eq_getElem (by omega)⟩
  obtain ⟨g, hg, -⟩ := h _ f hf
  exact absurd (Array.getElem?_eq_some_iff.mp hg).1 (Nat.lt_irrefl _)

end FramesKept

theorem framesKept_newFrame (s : Store F) (f : Frame) : FramesKept s (s.newFrame f).2 :=
  fun _ g hg => ⟨g, getElem?_push_of_some f hg, rfl, rfl⟩

/-- A frame binds a name exactly when the name is among its names. -/
theorem binds_iff (f : Frame) (name : String) :
    f.binds name = true ↔ name ∈ f.bindings.map Prod.fst := by
  unfold Frame.binds Frame.value?
  induction f.bindings with
  | nil => simp
  | cons b rest ih =>
      obtain ⟨other, v⟩ := b
      by_cases h : name = other
      · simp [h]
      · have hne : (name == other) = false := by simpa using h
        simp [List.lookup_cons, hne, h, ih]

/-- Binding a name that is bound changes no names. -/
theorem map_fst_insert {name : String} (v : Value) {bindings : List (String × Value)}
    (h : name ∈ bindings.map Prod.fst) :
    (Frame.insert name v bindings).map Prod.fst = bindings.map Prod.fst := by
  induction bindings with
  | nil => exact absurd h List.not_mem_nil
  | cons b rest ih =>
      obtain ⟨other, w⟩ := b
      by_cases hname : other = name
      · simp [Frame.insert, hname]
      · have hrest : name ∈ rest.map Prod.fst := by
          rcases List.mem_cons.mp h with hfirst | hrest
          · exact absurd hfirst.symm hname
          · exact hrest
        simp [Frame.insert, hname, ih hrest]

/-- The frame where a name is found binds it. -/
theorem binds_of_locate? {s : Store F} {env r : Ref} {name : String}
    (h : s.locate? env name = some r) :
    ∃ f, s.frames[r]? = some f ∧ name ∈ f.bindings.map Prod.fst := by
  have hbinds : s.binds name r = true := List.find?_some h
  obtain ⟨f, hf, hname⟩ := (Option.any_eq_true _ _).mp hbinds
  exact ⟨f, hf, (binds_iff f name).mp hname⟩

/-- An assignment finds its frame first, so it keeps all names. -/
theorem framesKept_bind {s : Store F} {env r : Ref} {name : String} (v : Value)
    (h : s.locate? env name = some r) : FramesKept s (s.bind r name v) := by
  obtain ⟨f, hf, hname⟩ := binds_of_locate? h
  intro q g hg
  show ∃ g', (s.frames.modify r _)[q]? = some g' ∧ _
  rw [Array.getElem?_modify]
  by_cases hq : r = q
  · -- The name is bound in this frame already, so it keeps its place there.
    subst hq
    obtain rfl := Option.some.inj (hf.symm.trans hg)
    exact ⟨f.bind name v, by simp [hf], map_fst_insert v hname, rfl⟩
  · exact ⟨g, by simp [hq, hg], rfl, rfl⟩

/-! ### Chains of frames -/

/-- The walk outward from a frame passes these frames and ends. -/
inductive Chain (s : Store F) : Ref → List Ref → Prop
  | outermost {r : Ref} {f : Frame} (frame : s.frames[r]? = some f) (outer : f.outer = none) :
      Chain s r [r]
  | inner {r o : Ref} {f : Frame} {refs : List Ref} (frame : s.frames[r]? = some f)
      (outer : f.outer = some o) (rest : Chain s o refs) : Chain s r (r :: refs)

namespace Chain

variable {s t : Store F} {r : Ref} {refs : List Ref}

theorem mono (hst : FramesKept s t) (h : s.Chain r refs) : t.Chain r refs := by
  induction h with
  | outermost frame outer =>
      obtain ⟨g, hg, -, houter⟩ := hst _ _ frame
      exact .outermost hg (houter.trans outer)
  | inner frame outer _ ih =>
      obtain ⟨g, hg, -, houter⟩ := hst _ _ frame
      exact .inner hg (houter.trans outer) ih

theorem unique {refs' : List Ref} (h : s.Chain r refs) (h' : s.Chain r refs') : refs = refs' := by
  induction h generalizing refs' with
  | outermost frame outer =>
      cases h' with
      | outermost => rfl
      | inner frame' outer' =>
          obtain rfl := Option.some.inj (frame.symm.trans frame')
          rw [outer] at outer'
          cases outer'
  | inner frame outer _ ih =>
      cases h' with
      | outermost frame' outer' =>
          obtain rfl := Option.some.inj (frame.symm.trans frame')
          rw [outer] at outer'
          cases outer'
      | inner frame' outer' rest' =>
          obtain rfl := Option.some.inj (frame.symm.trans frame')
          obtain rfl := Option.some.inj (outer.symm.trans outer')
          rw [ih rest']

/-- Every frame of a chain is there, and has a chain that is no longer. -/
theorem of_mem (h : s.Chain r refs) : ∀ q ∈ refs, q < s.frames.size ∧
    ∃ refs', s.Chain q refs' ∧ refs'.length ≤ refs.length := by
  induction h with
  | outermost frame outer =>
      intro q hq
      obtain rfl := List.mem_singleton.mp hq
      exact ⟨(Array.getElem?_eq_some_iff.mp frame).1, _, .outermost frame outer, Nat.le_refl _⟩
  | inner frame outer rest ih =>
      intro q hq
      rcases List.mem_cons.mp hq with rfl | hq
      · exact ⟨(Array.getElem?_eq_some_iff.mp frame).1, _, .inner frame outer rest,
          Nat.le_refl _⟩
      · obtain ⟨hlt, refs', hchain, hle⟩ := ih q hq
        exact ⟨hlt, refs', hchain, Nat.le_succ_of_le hle⟩

/-- No frame comes twice: its chain would be longer than itself. -/
theorem nodup (h : s.Chain r refs) : refs.Nodup := by
  induction h with
  | outermost => exact List.nodup_singleton _
  | @inner r o f refs frame outer rest ih =>
      refine List.nodup_cons.mpr ⟨fun hmem => ?_, ih⟩
      -- If the first frame came again, its one chain would be shorter than itself.
      obtain ⟨-, refs', hchain, hle⟩ := rest.of_mem r hmem
      rw [hchain.unique (.inner frame outer rest), List.length_cons] at hle
      omega

theorem chainFrom_eq (h : s.Chain r refs) :
    ∀ {fuel : Nat}, refs.length ≤ fuel → s.chainFrom fuel (some r) = refs := by
  induction h with
  | outermost frame outer =>
      intro fuel hfuel
      cases fuel with
      | zero => simp at hfuel
      | succ fuel =>
          -- The walk looks for a frame around this one, with no step left or some.
          cases fuel <;> simp [chainFrom, frame, outer]
  | inner frame outer _ ih =>
      intro fuel hfuel
      cases fuel with
      | zero => simp at hfuel
      | succ fuel =>
          rw [List.length_cons] at hfuel
          simp [chainFrom, frame, outer, ih (Nat.le_of_succ_le_succ hfuel)]

/-- The frames that lookup walks along. Its walk is counted, and no chain
is longer than the number of frames. -/
theorem chain_eq (h : s.Chain r refs) : s.chain r = refs :=
  h.chainFrom_eq (length_le_of_nodup_of_lt h.nodup fun q hq => (h.of_mem q hq).1)

end Chain

/-- Every frame has a finite chain of frames around it, and every closure
has a frame. -/
structure Rooted (s : Store F) : Prop where
  frames : ∀ r < s.frames.size, ∃ refs, s.Chain r refs
  closures : ∀ (r : Ref) (k : Closure), s.closures[r]? = some k → k.frame < s.frames.size

namespace Rooted

variable {s t : Store F}

theorem empty : Rooted ({} : Store F) :=
  ⟨fun _ hr => absurd hr (Nat.not_lt_zero _), fun _ _ hk => by cases hk⟩

/-- A store that keeps the frames of another one is rooted if that one is,
its new frames have chains, and its new closures have frames. -/
theorem of_kept (h : s.Rooted) (hkept : FramesKept s t)
    (hframes : ∀ r < t.frames.size, s.frames.size ≤ r → ∃ refs, t.Chain r refs)
    (hclosures : ∀ (r : Ref) (k : Closure), t.closures[r]? = some k →
      s.closures[r]? = some k ∨ k.frame < s.frames.size) : t.Rooted := by
  refine ⟨fun r hr => ?_, fun r k hk => ?_⟩
  · by_cases hold : r < s.frames.size
    · obtain ⟨refs, hchain⟩ := h.frames r hold
      exact ⟨refs, hchain.mono hkept⟩
    · exact hframes r hr (Nat.le_of_not_lt hold)
  · have hframe : k.frame < s.frames.size := (hclosures r k hk).elim (h.closures r k) id
    exact Nat.lt_of_lt_of_le hframe hkept.size_le

theorem of_eq (hf : t.frames = s.frames) (hc : t.closures = s.closures) (h : s.Rooted) :
    t.Rooted := by
  refine h.of_kept (.of_eq hf) (fun r hr hnew => ?_) fun r k hk => .inl (hc ▸ hk)
  rw [hf] at hr
  omega

theorem newFrame (h : s.Rooted) {bindings : List (String × Value)} {o : Ref}
    (ho : o < s.frames.size) : (s.newFrame ⟨bindings, some o⟩).2.Rooted := by
  have hkept := framesKept_newFrame s ⟨bindings, some o⟩
  have hsize : (s.newFrame ⟨bindings, some o⟩).2.frames.size = s.frames.size + 1 :=
    Array.size_push _
  refine h.of_kept hkept (fun r hr hnew => ?_) fun r k hk => .inl hk
  -- The new frame has the chain of the frame around it behind it.
  obtain rfl : r = s.frames.size := by omega
  obtain ⟨refs, hchain⟩ := h.frames o ho
  exact ⟨_ :: refs, .inner Array.getElem?_push_size rfl (hchain.mono hkept)⟩

theorem newClosure (h : s.Rooted) {k : Closure} (hk : k.frame < s.frames.size) :
    (s.newClosure k).2.Rooted := by
  refine h.of_kept (.of_eq rfl) (fun r hr hnew => absurd hr (Nat.not_lt.mpr hnew)) ?_
  intro r k' hk'
  have hpush : (s.closures.push k)[r]? = some k' := hk'
  rw [Array.getElem?_push] at hpush
  split at hpush
  · cases hpush
    exact .inr hk
  · exact .inl hpush

theorem bind (h : s.Rooted) {env r : Ref} {name : String} (v : Value)
    (hlocate : s.locate? env name = some r) : (s.bind r name v).Rooted := by
  have hsize : (s.bind r name v).frames.size = s.frames.size := Array.size_modify
  refine h.of_kept (framesKept_bind v hlocate) (fun q hq hnew => ?_) fun q k hk => .inl hk
  omega

/-- A new global frame has none around it. -/
theorem globalAdded (h : s.Rooted) (hst : s.GlobalAdded t) : t.Rooted := by
  obtain ⟨bindings, hframes, -⟩ := hst.frames
  have hkept : FramesKept s t := fun r f hf =>
    ⟨f, hframes ▸ getElem?_push_of_some _ hf, rfl, rfl⟩
  have hsize : t.frames.size = s.frames.size + 1 := by rw [hframes, Array.size_push]
  refine h.of_kept hkept (fun r hr hnew => ?_) fun r k hk => .inl (hst.closures ▸ hk)
  obtain rfl : r = s.frames.size := by omega
  exact ⟨_, .outermost (hframes ▸ Array.getElem?_push_size) rfl⟩

end Rooted

/-! ### Where names are found -/

namespace FramesKept

variable {s t : Store F} {env : Ref}

theorem binds_eq (h : FramesKept s t) {r : Ref} (hr : r < s.frames.size) (name : String) :
    t.binds name r = s.binds name r := by
  obtain ⟨f, hf⟩ : ∃ f, s.frames[r]? = some f := ⟨_, Array.getElem?_eq_getElem hr⟩
  obtain ⟨g, hg, hnames, -⟩ := h r f hf
  unfold binds
  rw [hf, hg, Bool.eq_iff_iff]
  show g.binds name = true ↔ f.binds name = true
  rw [binds_iff, binds_iff, hnames]

/-- A name is found in the same frame as before. -/
theorem locate?_eq (h : FramesKept s t) {refs : List Ref} (hchain : s.Chain env refs)
    (name : String) : t.locate? env name = s.locate? env name := by
  unfold locate?
  rw [(hchain.mono h).chain_eq, hchain.chain_eq]
  exact List.find?_congr fun q hq => h.binds_eq (hchain.of_mem q hq).1 name

end FramesKept

section Found

variable {s : Store F} {r o : Ref} {f : Frame}

theorem locate?_outermost (hf : s.frames[r]? = some f) (houter : f.outer = none) (name : String) :
    s.locate? r name = if f.binds name then some r else none := by
  rw [locate?, (Chain.outermost hf houter).chain_eq, List.find?_singleton]
  simp [binds, hf]

theorem locate?_inner {refs : List Ref} (hf : s.frames[r]? = some f) (houter : f.outer = some o)
    (hchain : s.Chain o refs) (name : String) :
    s.locate? r name = if f.binds name then some r else s.locate? o name := by
  rw [locate?, locate?, (Chain.inner hf houter hchain).chain_eq, hchain.chain_eq, List.find?_cons]
  simp only [binds, hf, Option.any_some]
  cases f.binds name <;> rfl

end Found

/-- A name has a value exactly when it is found. -/
theorem isSome_lookup? (s : Store F) (env : Ref) (name : String) :
    (s.lookup? env name).isSome = (s.locate? env name).isSome := by
  unfold lookup?
  cases hlocate : s.locate? env name with
  | none => rfl
  | some r =>
      obtain ⟨f, hf, hname⟩ := binds_of_locate? hlocate
      have hvalue : (f.value? name).isSome = true := (binds_iff f name).mpr hname
      show (s.valueAt? name r).isSome = true
      rw [valueAt?, hf]
      exact hvalue

end Store

/-! ### Runs -/

/-- A store as a run may have it. If the run starts with frames that end,
they end in this one too. -/
structure FrameWorld (start : Prop) where
  store : Store
  rooted : start → store.Rooted

instance (start : Prop) : Preorder (FrameWorld start) where
  le w w' := w.store.FramesKept w'.store
  le_refl _ := .of_eq rfl
  le_trans _ _ _ h k := h.trans k

/-- Values may be anything, and environments are frames that are there. -/
def frameDemand (start : Prop) : Demand (FrameWorld start) where
  store w := w.store
  Holds _ _ _ := True
  Visible w env := start → env < w.store.frames.size
  Body _ _ := True
  Reads _ _ := True
  holds_mono _ _ := trivial
  visible_mono hle henv h := Nat.lt_of_lt_of_le (henv h) (Store.FramesKept.size_le hle)
  body_mono _ _ := trivial

namespace FrameWorld

variable {start : Prop}

theorem next {w w' : FrameWorld start} (h : w.store.FramesKept w'.store) :
    (frameDemand start).Next w w' :=
  ⟨h, fun _ _ => trivial⟩

/-- The frames and closures are those of a world. -/
theorem of_eq (w : FrameWorld start) {t : Store} (hf : t.frames = w.store.frames)
    (hc : t.closures = w.store.closures) : ∃ w', (frameDemand start).Next w w' ∧ w'.store = t :=
  ⟨⟨t, fun h => (w.rooted h).of_eq hf hc⟩, next (.of_eq hf), rfl⟩

end FrameWorld

/-- Frames keep their names. -/
def frameDiscipline (start : Prop) : Discipline (FrameWorld start) where
  toDemand := frameDemand start
  atom _ := trivial
  constant _ _ := trivial
  car _ _ := trivial
  cdr _ _ := trivial
  body _ _ := trivial
  operands _ := trivial
  closure {w r k} hk _ := ⟨trivial, fun h => (w.rooted h).closures r k hk⟩
  lookup _ _ := trivial
  assign {w env r name v} hlocate _ _ :=
    ⟨⟨w.store.bind r name v, fun h => (w.rooted h).bind v hlocate⟩,
      FrameWorld.next (Store.framesKept_bind v hlocate), rfl⟩
  cons {w a d} _ _ := by
    obtain ⟨w', hnext, hstore⟩ := w.of_eq (t := (w.store.cons a d).2) rfl rfl
    exact ⟨w', hnext, hstore, trivial⟩
  setCar {w _ _} _ _ := w.of_eq rfl rfl
  setCdr {w _ _} _ _ := w.of_eq rfl rfl
  newClosure {w k} _ _ hframe :=
    ⟨⟨(w.store.newClosure k).2, fun h => (w.rooted h).newClosure (hframe h)⟩,
      FrameWorld.next (.of_eq rfl), rfl, trivial⟩
  newFrame {w bindings outer} _ houter :=
    ⟨⟨(w.store.newFrame ⟨bindings, some outer⟩).2, fun h => (w.rooted h).newFrame (houter h)⟩,
      FrameWorld.next (Store.framesKept_newFrame _ _), rfl,
      fun _ => by simp [Store.newFrame, frameDemand]⟩
  load {w _ d} _ _ := by
    have hload := Store.extends_load d w.store
    obtain ⟨w', hnext, hstore⟩ := w.of_eq hload.frames hload.closures
    exact ⟨w', hnext.1, hstore, trivial, trivial⟩

/-- Making a global frame leaves a store rooted. -/
theorem rooted_makeGlobal {m : Machine} (h : m.store.Rooted) (primitives : List Primitive)
    (placeholders : List String) :
    (outcome (makeGlobal primitives placeholders m)).store.Rooted := by
  obtain ⟨m', hrun, hadded⟩ := makeGlobal_run primitives placeholders m
  rw [hrun]
  exact h.globalAdded hadded

/-- The frames of the first store are kept, all frames of the second end,
and names seen from a frame of the first are found where they were, or are
as unbound as they were. -/
structure Store.FramesStable (s t : Store) : Prop where
  kept : s.FramesKept t
  rooted : t.Rooted
  located : ∀ env < s.frames.size, ∀ name, t.locate? env name = s.locate? env name
  bound : ∀ env < s.frames.size, ∀ name,
    (t.lookup? env name).isSome = (s.lookup? env name).isSome

theorem FrameWorld.framesStable {start : Prop} (h : start) {w w' : FrameWorld start}
    (hle : w ≤ w') : w.store.FramesStable w'.store := by
  have hlocated (env : Ref) (henv : env < w.store.frames.size) (name : String) :
      w'.store.locate? env name = w.store.locate? env name := by
    obtain ⟨refs, hchain⟩ := (w.rooted h).frames env henv
    exact Store.FramesKept.locate?_eq hle hchain name
  refine ⟨hle, w'.rooted h, hlocated, fun env henv name => ?_⟩
  rw [Store.isSome_lookup?, Store.isSome_lookup?, hlocated env henv name]

/-- Frames are stable between any two moments of a run. -/
theorem framesStable_of_leads {start : Prop} (h : start) {w : FrameWorld start}
    {c c₁ c₂ : Configuration} (hobeys : (frameDiscipline start).Obeys w c)
    (hfirst : c.Leads c₁) (hsecond : c₁.Leads c₂) :
    c₁.machine.store.FramesStable c₂.machine.store := by
  obtain ⟨w₁, -, hobeys₁⟩ := Discipline.leads hobeys hfirst
  obtain ⟨w₂, hle, hobeys₂⟩ := Discipline.leads hobeys₁ hsecond
  rw [← hobeys₁.store, ← hobeys₂.store]
  exact FrameWorld.framesStable h hle

/-- A run keeps all frames, and they are stable if the run starts in order.
What it takes to start in order goes into the world, so that one run gives
both. -/
theorem framesStable_of_control {m : Machine} {start : Prop} (hstart : start → m.store.Rooted)
    {control : Control} (hfits : (frameDiscipline start).FitsControl ⟨m.store, hstart⟩ control)
    {result : EStateM.Result Fault Machine Value}
    (hleads : ((Configuration.rest m []).goto control).Leads
      ((Configuration.rest m []).finish .value result)) :
    m.store.FramesKept (outcome result).store ∧
    (start → m.store.FramesStable (outcome result).store ∧
      ∀ c₁ c₂, ((Configuration.rest m []).goto control).Leads c₁ → c₁.Leads c₂ →
        c₁.machine.store.FramesStable c₂.machine.store) := by
  have hobeys : (frameDiscipline start).Obeys ⟨m.store, hstart⟩
      ((Configuration.rest m []).goto control) := Discipline.obeys_rest rfl trivial hfits
  obtain ⟨w, hle, hstore, -⟩ := (Discipline.leads hobeys hleads).outcome
  rw [← hstore]
  refine ⟨hle, fun h => ⟨FrameWorld.framesStable h hle, fun c₁ c₂ hfirst hsecond => ?_⟩⟩
  exact framesStable_of_leads h hobeys hfirst hsecond

/-- **Frames keep their names and their places.** Evaluation and application
keep every frame, whether they give a value or fail, from any state. From a
state whose frames end, frames are stable over the whole run and between any
two moments of it. Global frames end (`rooted_makeGlobal`), and the state
after a run is again one whose frames end. -/
theorem frames_stable (m : Machine) :
    (∀ (depth : Nat) (env : Ref) (expr : Value),
      m.store.FramesKept (outcome (evaluate depth env expr m)).store ∧
      (m.store.Rooted → env < m.store.frames.size →
        m.store.FramesStable (outcome (evaluate depth env expr m)).store ∧
        ∀ c₁ c₂, ((Configuration.rest m []).goto (.evaluate depth env expr)).Leads c₁ →
          c₁.Leads c₂ → c₁.machine.store.FramesStable c₂.machine.store)) ∧
    (∀ (depth : Nat) (fn : Value) (args : List Value),
      m.store.FramesKept (outcome (apply depth fn args m)).store ∧
      (m.store.Rooted →
        m.store.FramesStable (outcome (apply depth fn args m)).store ∧
        ∀ c₁ c₂, ((Configuration.rest m []).goto (.apply depth fn args)).Leads c₁ →
          c₁.Leads c₂ → c₁.machine.store.FramesStable c₂.machine.store)) := by
  refine ⟨fun depth env expr => ?_, fun depth fn args => ?_⟩
  · have hstart : m.store.Rooted ∧ env < m.store.frames.size → m.store.Rooted := And.left
    have hfits : (frameDiscipline _).FitsControl ⟨m.store, hstart⟩ (.evaluate depth env expr) :=
      ⟨And.right, trivial⟩
    obtain ⟨hkept, hstable⟩ :=
      framesStable_of_control hstart hfits (Configuration.leads_evaluate depth _ env expr)
    exact ⟨hkept, fun hrooted henv => hstable ⟨hrooted, henv⟩⟩
  · have hfits : (frameDiscipline _).FitsControl ⟨m.store, id⟩ (.apply depth fn args) :=
      ⟨trivial, fun _ _ => trivial⟩
    exact framesStable_of_control id hfits (Configuration.leads_apply _ depth fn args)

/-- A global frame, one frame inside it, and a closure made there whose body
assigns the global name: `(lambda (y) (set! x y))`. -/
def assigningMachine : Machine where
  store :=
    { cells := #[⟨.symbol "y", .nil⟩, ⟨.symbol "y", .nil⟩, ⟨.symbol "x", .pair 1⟩,
        ⟨.symbol "set!", .pair 2⟩, ⟨.pair 3, .nil⟩]
      frames := #[⟨[("x", .nil)], none⟩, ⟨[], some 0⟩]
      closures := #[⟨.pair 0, .pair 4, 1⟩] }

theorem rooted_assigningMachine : assigningMachine.store.Rooted := by
  have houtermost : assigningMachine.store.Chain 0 [0] := .outermost rfl rfl
  refine ⟨fun r hr => ?_, fun r k hk => ?_⟩
  · match r, hr with
    | 0, _ => exact ⟨_, houtermost⟩
    | 1, _ => exact ⟨_, .inner rfl rfl houtermost⟩
  · match r, hk with
    | 0, hk =>
        cases hk
        decide

theorem frames_stable_assigningMachine :
    assigningMachine.store.Rooted ∧
    assigningMachine.store.FramesStable
      (outcome (evaluate 9 1 (.symbol "x") assigningMachine)).store ∧
    assigningMachine.store.FramesStable
      (outcome (apply 9 (.closure 0) [.boolean true] assigningMachine)).store :=
  ⟨rooted_assigningMachine,
    (((frames_stable assigningMachine).1 9 1 (.symbol "x")).2 rooted_assigningMachine
      (by decide)).1,
    (((frames_stable assigningMachine).2 9 (.closure 0) [.boolean true]).2
      rooted_assigningMachine).1⟩

end MiniScheme
