import MiniScheme.Datum.Stream
import MiniScheme.Proofs.Parsing

/-!
# `MiniScheme.Proofs.Descent`: recursive descent does what the automaton does

A stream reads by recursive descent, and a plain cursor by an automaton with a
stack of open forms. The bridge is that a function of the descent is called
while some forms are open, and that it does not matter which: the computation
agrees (`TokenStream.Agrees`) with what the automaton does for every stack that
awaits a datum, up to the step in which the automaton delivers the datum to the
stack. So each loop of the descent is compared with the automaton while one form
more is open (`agrees_listFrom`, `agrees_vectorFrom`), and the data inside that
form are an instance of the statement for one level less (`reads_expression`).

An overflow ends a source that cuts its tokens from a text. Only there do the
two leave different tokens behind, which is a case of its own.
-/

set_option autoImplicit false

namespace MiniScheme

open Datum (Awaits feed start deliver)
open Cursor (nextFrom proceed)

/-- A token where a datum has to start is taken. -/
theorem Datum.start_ne_decline (room : Nat) (stack : List OpenForm) (t : Token) (e : Fault) :
    start room stack t ≠ .decline e := by
  have hopen (form : OpenForm) : openForm form room stack ≠ .decline e := by
    cases room <;> exact nofun
  unfold start
  split
  · split
    · exact nofun
    · exact deliver_ne_decline _ _ _ _
  · exact deliver_ne_decline _ _ _ _
  · exact deliver_ne_decline _ _ _ _
  · exact hopen _
  · exact hopen _
  · exact hopen _
  · exact nofun
  · exact nofun

namespace TokenStream

variable {s s' q : TokenStream} {src : TokenSource} {t : Token} {room : Nat} {α β : Type}
  {wrap : Datum → α} {give : Datum → List OpenForm → Datum.Step}
  {plain : List OpenForm → Except Fault (Option Datum) × Cursor}

/-- At most one token waits to be taken. -/
def Sound (s : TokenStream) : Prop := s.buffer.length ≤ 1

/-- The plain cursor that a stream stands for. -/
def cursor (s : TokenStream) : Cursor := ⟨s.left, s.source.fault⟩

/-! ### Running -/

theorem bind_run (m : Reading α) (g : α → Reading β) (s : TokenStream) :
    (m >>= g) s = match m s with
      | .ok a s => g a s
      | .error e s => .error e s := by
  show EStateM.bind m g s = _
  unfold EStateM.bind
  cases m s <;> rfl

/-! ### What is left of a stream -/

/-- A stream whose tokens were all taken, and whose fault arose if it had
one. -/
def ended (s : TokenStream) : TokenStream := ⟨[], [], none, s.source.scanned⟩

/-- What a computation may do to a stream. -/
structure Leaves (s s' : TokenStream) : Prop where
  sound : s'.Sound
  suffix : s'.left <:+ s.left
  scanned : s'.source.scanned = s.source.scanned

theorem Leaves.refl (hs : s.Sound) : s.Leaves s := ⟨hs, List.suffix_refl _, rfl⟩

theorem Leaves.trans (h : s.Leaves s') (k : s'.Leaves q) : s.Leaves q :=
  ⟨k.sound, k.suffix.trans h.suffix, k.scanned.trans h.scanned⟩

theorem sound_taken (src : TokenSource) : Sound ⟨[], src⟩ := Nat.zero_le 1

/-- The token that waits is taken. -/
theorem leaves_taken (t : Token) (src : TokenSource) : Leaves ⟨[t], src⟩ ⟨[], src⟩ :=
  ⟨sound_taken src, List.suffix_cons _ _, rfl⟩

theorem leaves_ended (s : TokenStream) : s.Leaves s.ended :=
  ⟨Nat.zero_le 1, List.nil_suffix, rfl⟩

/-! ### Looking at the next token -/

theorem Sound.cases (hs : s.Sound) : (∃ src, s = ⟨[], src⟩) ∨ ∃ t src, s = ⟨[t], src⟩ := by
  obtain ⟨buffer, src⟩ := s
  match buffer, hs with
  | [], _ => exact .inl ⟨src, rfl⟩
  | [t], _ => exact .inr ⟨t, src, rfl⟩

/-- A token that is there waits to be taken when it was looked at. -/
theorem exists_peek (hs : s.Sound) (hleft : s.left ≠ []) :
    ∃ t src, peek s = .ok (some t) ⟨[t], src⟩ ∧ s.left = t :: src.tokens ∧
      src.fault = s.source.fault ∧ s.Leaves ⟨[t], src⟩ := by
  rcases hs.cases with ⟨⟨tokens, fault, scanned⟩, rfl⟩ | ⟨t, src, rfl⟩
  · cases tokens with
    | nil => exact absurd rfl hleft
    | cons t ts =>
        exact ⟨t, ⟨ts, fault, scanned⟩, rfl, rfl, rfl, Nat.le_refl 1, List.suffix_refl _, rfl⟩
  · exact ⟨t, src, rfl, rfl, rfl, .refl hs⟩

/-- Behind the last token the fault of the source arises, if it did not
before. -/
theorem peek_of_left_eq_nil (hleft : s.left = []) :
    peek s = match s.source.fault with
      | some e => .error (.reading e) s.ended
      | none => .ok none s.ended := by
  obtain ⟨buffer, tokens, fault, scanned⟩ := s
  obtain ⟨rfl, rfl⟩ : buffer = [] ∧ tokens = [] := List.append_eq_nil_iff.mp hleft
  cases fault <;> rfl

/-! ### Agreement with the automaton -/

/-- On a stream, a computation ended as the plain reader does, whatever forms
are open: with a datum, which the plain reader then gives to them, or with a
fault. When a text overflows, nothing is left of it. -/
inductive Agrees (wrap : Datum → α) (s : TokenStream) (give : Datum → List OpenForm → Datum.Step)
    (plain : List OpenForm → Except Fault (Option Datum) × Cursor) :
    EStateM.Result Fault TokenStream α → Prop
  | ok {d : Datum} {s' : TokenStream} (leaves : s.Leaves s')
      (fault : s'.source.fault = s.source.fault)
      (same : ∀ stack, Awaits stack →
        plain stack = proceed s'.source.fault s'.left (give d stack)) :
      Agrees wrap s give plain (.ok (wrap d) s')
  | error {e : Fault} {s' : TokenStream} (leaves : s.Leaves s')
      (same : ∀ stack, Awaits stack → plain stack = (.error e, s'.cursor)) :
      Agrees wrap s give plain (.error e s')
  | overflow {s' : TokenStream} (leaves : s.Leaves s') (scanned : s.source.scanned = true)
      (ended : s'.cursor = ⟨[], none⟩)
      (same : ∀ stack, Awaits stack → (plain stack).1 = .error .tooDeep) :
      Agrees wrap s give plain (.error .tooDeep s')

namespace Agrees

/-- What happens from a later stream on happens from an earlier one. -/
theorem of_leaves {r : EStateM.Result Fault TokenStream α} (h : Agrees wrap q give plain r)
    (hleaves : s.Leaves q) (hfault : q.source.fault = s.source.fault) :
    Agrees wrap s give plain r := by
  cases h with
  | ok leaves fault same => exact .ok (hleaves.trans leaves) (fault.trans hfault) same
  | error leaves same => exact .error (hleaves.trans leaves) same
  | overflow leaves scanned ended same =>
      exact .overflow (hleaves.trans leaves) (hleaves.scanned.symm.trans scanned) ended same

/-- Any forms can be open, so one more can. -/
theorem under {r : EStateM.Result Fault TokenStream α} (h : Agrees wrap s give plain r)
    {form : OpenForm} (hform : ∀ stack, Awaits (form :: stack)) :
    Agrees wrap s (fun d stack => give d (form :: stack)) (fun stack => plain (form :: stack)) r := by
  cases h with
  | ok leaves fault same => exact .ok leaves fault fun stack _ => same _ (hform stack)
  | error leaves same => exact .error leaves fun stack _ => same _ (hform stack)
  | overflow leaves scanned ended same =>
      exact .overflow leaves scanned ended fun stack _ => same _ (hform stack)

theorem congr {r : EStateM.Result Fault TokenStream α} (h : Agrees wrap s give plain r)
    {plain' : List OpenForm → Except Fault (Option Datum) × Cursor}
    (hplain : ∀ stack, Awaits stack → plain' stack = plain stack) :
    Agrees wrap s give plain' r := by
  cases h with
  | ok leaves fault same =>
      exact .ok leaves fault fun stack hstack => (hplain stack hstack).trans (same stack hstack)
  | error leaves same =>
      exact .error leaves fun stack hstack => (hplain stack hstack).trans (same stack hstack)
  | overflow leaves scanned ended same =>
      refine .overflow leaves scanned ended fun stack hstack => ?_
      rw [hplain stack hstack]
      exact same stack hstack

/-- A computation and what follows it. -/
theorem bind {m : Reading α} {g : α → Reading β} {wrap' : Datum → β}
    {give' : Datum → List OpenForm → Datum.Step} (h : Agrees wrap s give plain (m q))
    (hok : ∀ d s', s.Leaves s' → Agrees wrap' s' give'
      (fun stack => proceed s'.source.fault s'.left (give d stack)) (g (wrap d) s')) :
    Agrees wrap' s give' plain ((m >>= g) q) := by
  rw [bind_run]
  generalize m q = r at h
  cases h with
  | ok leaves fault same => exact ((hok _ _ leaves).congr same).of_leaves leaves fault
  | error leaves same => exact .error leaves same
  | overflow leaves scanned ended same => exact .overflow leaves scanned ended same

end Agrees

/-- Before the next token is taken it is looked at. At the end of the tokens,
the innermost form is unfinished. -/
theorem agrees_peek_bind {form : OpenForm} {k : Option Token → Reading α} (hs : s.Sound)
    (hnone : k none = throw (.reading form.unfinished))
    (hsome : ∀ t src, s.left = t :: src.tokens → Agrees wrap ⟨[t], src⟩ give
      (fun stack => nextFrom src.fault room (form :: stack) (t :: src.tokens))
      (k (some t) ⟨[t], src⟩)) :
    Agrees wrap s give (fun stack => nextFrom s.source.fault room (form :: stack) s.left)
      ((peek >>= k) s) := by
  rw [bind_run]
  by_cases hleft : s.left = []
  · rw [peek_of_left_eq_nil hleft, hleft]
    cases hfault : s.source.fault with
    | some e => exact .error s.leaves_ended fun _ _ => rfl
    | none =>
        dsimp only
        rw [hnone]
        exact .error s.leaves_ended fun _ _ => rfl
  · obtain ⟨t, src, hpeek, hcons, hfault, hpeeked⟩ := exists_peek hs hleft
    rw [hpeek, hcons, ← hfault]
    exact (hsome t src hcons).of_leaves hpeeked hfault

/-- A token that is a fault in the innermost form stays. -/
theorem agrees_throw {form : OpenForm} {e : Fault}
    (hfeed : ∀ stack, feed room (form :: stack) t = .decline e) :
    Agrees wrap ⟨[t], src⟩ give
      (fun stack => nextFrom src.fault room (form :: stack) (t :: src.tokens))
      ((throw e : Reading α) ⟨[t], src⟩) := by
  refine .error (.refl (Nat.le_refl 1)) fun stack _ => ?_
  rw [nextFrom, hfeed]
  rfl

/-- A token that ends the innermost form is taken. -/
theorem agrees_advance_return {form : OpenForm} {d : Datum}
    (hfeed : ∀ stack, feed room (form :: stack) t = deliver d (room + 1) stack) :
    Agrees id ⟨[t], src⟩ (fun d stack => deliver d (room + 1) stack)
      (fun stack => nextFrom src.fault room (form :: stack) (t :: src.tokens))
      ((do let _ ← advance; return d : Reading Datum) ⟨[t], src⟩) := by
  refine .ok (d := d) (leaves_taken t src) rfl fun stack _ => ?_
  rw [Cursor.nextFrom_cons, hfeed]
  · rfl
  · rw [hfeed]
    exact Datum.deliver_ne_decline _ _ _

/-- A datum that was read is given back. -/
theorem agrees_return {d : Datum} (hs : s.Sound) :
    Agrees id s give (fun stack => proceed s.source.fault s.left (give d stack))
      ((return d : Reading Datum) s) :=
  .ok (d := d) (.refl hs) rfl fun _ _ => rfl

/-- The function reads a datum that starts with the token that waits, if there
are less than `bound` tokens behind it. -/
def Reads (inner : Reading (Option Datum)) (room bound : Nat) : Prop :=
  ∀ t src, src.tokens.length < bound → Agrees some ⟨[], src⟩ (fun d stack => deliver d room stack)
    (fun stack => proceed src.fault src.tokens (start room stack t)) (inner ⟨[t], src⟩)

variable {inner : Reading (Option Datum)} {bound : Nat}

/-- A datum is read inside the innermost form, and takes the token that waits. -/
theorem Reads.agrees_bind (h : Reads inner room bound) {form : OpenForm}
    (hbound : src.tokens.length < bound) (hform : ∀ stack, Awaits (form :: stack))
    (hfeed : ∀ stack, feed room (form :: stack) t = start room (form :: stack) t)
    {g : Option Datum → Reading α}
    (hok : ∀ d s', s'.Sound → s'.left.length ≤ src.tokens.length → Agrees wrap s' give
      (fun stack => proceed s'.source.fault s'.left (deliver d room (form :: stack)))
      (g (some d) s')) :
    Agrees wrap ⟨[t], src⟩ give
      (fun stack => nextFrom src.fault room (form :: stack) (t :: src.tokens))
      ((inner >>= g) ⟨[t], src⟩) := by
  have hplain : ∀ stack, Awaits stack → nextFrom src.fault room (form :: stack) (t :: src.tokens)
      = proceed src.fault src.tokens (start room (form :: stack) t) := by
    intro stack _
    rw [Cursor.nextFrom_cons, hfeed]
    rw [hfeed]
    exact Datum.start_ne_decline _ _ _
  have hread := ((h t src hbound).under hform).congr hplain
  refine Agrees.of_leaves (hread.bind fun d s' hleaves => ?_) (leaves_taken t src) rfl
  exact hok d s' hleaves.sound hleaves.suffix.length_le

/-! ### Forms -/

/-- The datum that a quote mark or a dot waits for. -/
theorem agrees_required (h : Reads inner room bound) {form : OpenForm} {lead : Lead}
    (hform : ∀ stack, Awaits (form :: stack)) (hend : form.unfinished = .endAfter lead)
    (hclose : ∀ t stack, t.kind = .rparen →
      feed room (form :: stack) t = .decline (.reading (.closeAfter lead)))
    (hstart : ∀ t stack, t.kind ≠ .rparen →
      feed room (form :: stack) t = start room (form :: stack) t) (hs : s.Sound)
    (hbound : s.left.length ≤ bound) :
    Agrees id s (fun d stack => deliver d room (form :: stack))
      (fun stack => nextFrom s.source.fault room (form :: stack) s.left)
      (required inner lead s) := by
  refine agrees_peek_bind hs (by rw [hend]) fun t src hleft => ?_
  rw [hleft, List.length_cons] at hbound
  dsimp only
  split
  · rename_i hkind
    exact agrees_throw fun stack => hclose t stack hkind
  · rename_i hkind
    exact h.agrees_bind hbound hform (fun stack => hstart t stack hkind)
      fun d s' hs' _ => agrees_return hs'

/-- The end of a list after its tail. -/
theorem agrees_ending (items : List Datum) (tail : Datum) (hs : s.Sound) :
    Agrees id s (fun d stack => deliver d (room + 1) stack)
      (fun stack => nextFrom s.source.fault room (.ending items tail :: stack) s.left)
      (ending items tail s) := by
  refine agrees_peek_bind hs rfl fun t src _ => ?_
  dsimp only
  split
  · rename_i hkind
    exact agrees_advance_return fun stack => by simp [feed, hkind]
  · rename_i hkind
    exact agrees_throw fun stack => by simp [feed, hkind]

/-- The dot of a list is taken, its tail is read, and its end. -/
theorem agrees_dot (h : Reads inner room bound) {items : List Datum}
    (hbound : src.tokens.length < bound)
    (hfeed : ∀ stack, feed room (.list items :: stack) t = .more room (.tail items :: stack)) :
    Agrees id ⟨[t], src⟩ (fun d stack => deliver d (room + 1) stack)
      (fun stack => nextFrom src.fault room (.list items :: stack) (t :: src.tokens))
      ((do
        let _ ← advance
        let tail ← required inner .dot
        ending items tail : Reading Datum) ⟨[t], src⟩) := by
  have hplain : ∀ stack, Awaits stack → nextFrom src.fault room (.list items :: stack)
      (t :: src.tokens) = nextFrom src.fault room (.tail items :: stack) src.tokens := by
    intro stack _
    rw [nextFrom, hfeed]
  have hrequired : Agrees id ⟨[], src⟩ (fun d stack => deliver d room (.tail items :: stack))
      (fun stack => nextFrom src.fault room (.tail items :: stack) src.tokens)
      (required inner .dot ⟨[], src⟩) :=
    agrees_required h (fun _ => trivial) rfl (fun t stack hkind => by simp [feed, hkind])
      (fun t stack hkind => by simp [feed, hkind]) (sound_taken src) (Nat.le_of_lt hbound)
  refine Agrees.of_leaves ?_ (leaves_taken t src) rfl
  exact (hrequired.congr hplain).bind fun tail s' hleaves => agrees_ending items tail hleaves.sound

/-- What is left of a list. The fuel lasts because each datum takes a token. -/
theorem agrees_listFrom (h : Reads inner room bound) (fuel : Nat) :
    ∀ {items : List Datum} {s : TokenStream}, s.Sound → s.left.length < fuel →
      s.left.length ≤ bound →
      Agrees id s (fun d stack => deliver d (room + 1) stack)
        (fun stack => nextFrom s.source.fault room (.list items :: stack) s.left)
        (listFrom inner fuel items s) := by
  induction fuel with
  | zero => exact fun _ hfuel _ => absurd hfuel (Nat.not_lt_zero _)
  | succ fuel ih =>
      intro items s hs hfuel hbound
      rw [listFrom]
      refine agrees_peek_bind hs rfl fun t src hleft => ?_
      rw [hleft, List.length_cons] at hfuel hbound
      dsimp only
      split
      · rename_i hkind
        exact agrees_advance_return fun stack => by simp [feed, hkind]
      · rename_i hkind
        split
        · rename_i hdot
          split
          · rename_i hempty
            exact agrees_throw fun stack => by simp [feed, hdot, hempty]
          · rename_i hitems
            exact agrees_dot h hbound fun stack => by simp [feed, hdot, hitems]
        · rename_i hdot
          have hawaits (stack : List OpenForm) : Awaits (.list items :: stack) := trivial
          refine h.agrees_bind hbound hawaits (fun stack => ?_) fun d s' hs' hlength => ?_
          · simp [feed, hkind, hdot]
          · exact ih hs' (by omega) (by omega)

/-- What is left of a vector. The fuel lasts because each datum takes a token. -/
theorem agrees_vectorFrom (h : Reads inner room bound) (fuel : Nat) :
    ∀ {items : List Datum} {s : TokenStream}, s.Sound → s.left.length < fuel →
      s.left.length ≤ bound →
      Agrees id s (fun d stack => deliver d (room + 1) stack)
        (fun stack => nextFrom s.source.fault room (.vector items :: stack) s.left)
        (vectorFrom inner fuel items s) := by
  induction fuel with
  | zero => exact fun _ hfuel _ => absurd hfuel (Nat.not_lt_zero _)
  | succ fuel ih =>
      intro items s hs hfuel hbound
      rw [vectorFrom]
      refine agrees_peek_bind hs rfl fun t src hleft => ?_
      rw [hleft, List.length_cons] at hfuel hbound
      dsimp only
      split
      · rename_i hkind
        exact agrees_advance_return fun stack => by simp [feed, hkind]
      · rename_i hkind
        have hawaits (stack : List OpenForm) : Awaits (.vector items :: stack) := trivial
        refine h.agrees_bind hbound hawaits (fun stack => ?_) fun d s' hs' hlength => ?_
        · simp [feed, hkind]
        · exact ih hs' (by omega) (by omega)

/-! ### Data -/

/-- Behind a token that was taken, the computation agrees with the automaton
behind the step that the token is. -/
def Resumes (room : Nat) (src : TokenSource) (step : List OpenForm → Datum.Step)
    (m : Reading Datum) : Prop :=
  Agrees id ⟨[], src⟩ (fun d stack => deliver d room stack)
    (fun stack => proceed src.fault src.tokens (step stack)) (m ⟨[], src⟩)

/-- With no room left, no form can be opened. -/
theorem resumes_overflow (form : OpenForm) : Resumes 0 src (Datum.openForm form 0) overflow := by
  obtain ⟨tokens, fault, scanned⟩ := src
  cases scanned with
  | false => exact .error (.refl (sound_taken _)) fun _ _ => rfl
  | true => exact .overflow (leaves_ended _) rfl rfl fun _ _ => rfl

/-- A token that is a fault wherever a datum has to start. -/
theorem resumes_throw (e : Fault) : Resumes room src (fun _ => .reject e) (throw e) :=
  .error (.refl (sound_taken src)) fun _ _ => rfl

/-- A token that is a datum by itself. -/
theorem resumes_return (d : Datum) : Resumes room src (deliver d room) (return d) :=
  agrees_return (sound_taken src)

variable {fuel : Nat} {opened : (Reading (Option Datum) → Reading Datum) → Reading Datum}

/-- What a token stands for, given how forms are read that it can open. -/
theorem resumes_datum
    (hquote : Resumes room src (Datum.openForm .quotation room)
      (opened fun inner => do return .quotation (← required inner .quote)))
    (hlist : Resumes room src (Datum.openForm (.list []) room)
      (opened fun inner => listFrom inner fuel []))
    (hvector : Resumes room src (Datum.openForm (.vector []) room)
      (opened fun inner => vectorFrom inner fuel [])) :
    Resumes room src (start room · t) (datum fuel opened t) := by
  obtain ⟨kind, text⟩ := t
  cases kind with
  | symbol =>
      by_cases hdot : text = "."
      · subst hdot
        exact resumes_throw _
      · simp only [start, datum, hdot, if_false]
        exact resumes_return _
  | boolean => exact resumes_return _
  | string => exact resumes_return _
  | quote => exact hquote
  | lparen => exact hlist
  | vector => exact hvector
  | rparen => exact resumes_throw _
  | other name => exact resumes_throw _

/-- A datum that starts with the token that waits is what the token stands
for. -/
theorem reads_expressionWith (h : ∀ t src, src.tokens.length < bound →
    Resumes room src (start room · t) (datum fuel opened t)) :
    Reads (expressionWith fuel opened) room bound := by
  intro t src hbound
  show Agrees some _ _ _ ((datum fuel opened t >>= fun d => return some d) ⟨[], src⟩)
  exact Agrees.bind (h t src hbound) fun d s' hleaves => .ok (.refl hleaves.sound) rfl fun _ _ => rfl

/-- **Recursive descent agrees with the automaton**, at every level. -/
theorem reads_expression (fuel room : Nat) : Reads (expression fuel room) room fuel := by
  induction room with
  | zero =>
      exact reads_expressionWith fun t src hbound =>
        resumes_datum (resumes_overflow _) (resumes_overflow _) (resumes_overflow _)
  | succ room ih =>
      refine reads_expressionWith fun t src hbound => resumes_datum ?quote ?list ?vector
      case quote =>
        have hrequired : Agrees id ⟨[], src⟩ (fun d stack => deliver d room (.quotation :: stack))
            (fun stack => nextFrom src.fault room (.quotation :: stack) src.tokens)
            (required (expression fuel room) .quote ⟨[], src⟩) :=
          agrees_required ih (fun _ => trivial) rfl (fun t stack hkind => by simp [feed, hkind])
            (fun t stack hkind => by simp [feed, hkind]) (sound_taken src) (Nat.le_of_lt hbound)
        exact hrequired.bind fun d s' hleaves => agrees_return hleaves.sound
      case list => exact agrees_listFrom ih fuel (sound_taken src) hbound (Nat.le_of_lt hbound)
      case vector => exact agrees_vectorFrom ih fuel (sound_taken src) hbound (Nat.le_of_lt hbound)

/-! ### One datum of a stream -/

/-- Reading a datum starts with looking at the next token. -/
theorem exists_peek_bind (fuel room : Nat) : ∃ k : Option Token → Reading (Option Datum),
    expression fuel room = peek >>= k ∧ k none = pure none := by
  cases room <;> exact ⟨_, rfl, rfl⟩

/-- So nothing changes if one has looked before. -/
theorem expression_of_peek (hpeek : peek s = .ok (some t) ⟨[t], src⟩) :
    expression fuel room s = expression fuel room ⟨[t], src⟩ := by
  obtain ⟨k, hk, -⟩ := exists_peek_bind fuel room
  have hagain : peek ⟨[t], src⟩ = .ok (some t) ⟨[t], src⟩ := rfl
  rw [hk, bind_run, bind_run, hpeek, hagain]

/-- A token that was looked at waits. -/
theorem exists_buffer_of_peek (hpeek : peek s = .ok (some t) s') :
    ∃ buffer, s'.buffer = t :: buffer := by
  obtain ⟨buffer, tokens, fault, scanned⟩ := s
  cases buffer with
  | cons t' buffer =>
      cases hpeek
      exact ⟨buffer, rfl⟩
  | nil =>
      cases tokens with
      | cons t' tokens =>
          cases hpeek
          exact ⟨[], rfl⟩
      | nil => cases fault <;> cases hpeek

/-- Behind a token that was looked at, there is a datum or a fault. -/
theorem expression_ne_ok_none (fuel room : Nat) (hpeek : peek s = .ok (some t) s') :
    expression fuel room s' ≠ .ok none q := by
  obtain ⟨opened, hopened⟩ : ∃ opened, expression fuel room = expressionWith fuel opened := by
    cases room <;> exact ⟨_, rfl⟩
  obtain ⟨buffer, hbuffer⟩ := exists_buffer_of_peek hpeek
  obtain ⟨buffer', src⟩ := s'
  subst hbuffer
  have hrun : expressionWith fuel opened ⟨t :: buffer, src⟩ =
      (datum fuel opened t >>= fun d => return some d) ⟨buffer, src⟩ := rfl
  rw [hopened, hrun, bind_run]
  cases datum fuel opened t ⟨buffer, src⟩ <;> exact nofun

/-- So it does not matter what `required`, `listFrom` and `vectorFrom` do if the data
in a form were to give nothing after they have looked at a token. -/
theorem expression_bind_congr {g g' : Option Datum → Reading α} (fuel room : Nat)
    (hpeek : peek s = .ok (some t) s') (hg : ∀ d, g (some d) = g' (some d)) :
    (expression fuel room >>= g) s' = (expression fuel room >>= g') s' := by
  rw [bind_run, bind_run]
  cases hread : expression fuel room s' with
  | error e q => rfl
  | ok d q =>
      cases d with
      | none => exact absurd hread (expression_ne_ok_none fuel room hpeek)
      | some d => exact congrFun (hg d) q

/-- At the end there is nothing to read. -/
theorem expression_of_left_eq_nil (hleft : s.left = []) :
    expression fuel room s = match s.source.fault with
      | some e => .error (.reading e) s.ended
      | none => .ok none s.ended := by
  obtain ⟨k, hk, hnone⟩ := exists_peek_bind fuel room
  rw [hk, bind_run, peek_of_left_eq_nil hleft]
  cases s.source.fault with
  | none => exact congrFun hnone s.ended
  | some e => rfl

/-- What reading a datum does to a stream, as the plain reader does it: it reads
one and takes a token at least, or comes to the end, or fails. When a text
overflows, nothing is left of it. -/
inductive Parsed (s : TokenStream) (depth : Nat) :
    EStateM.Result Fault TokenStream (Option Datum) → Prop
  | done {d : Datum} {s' : TokenStream} (leaves : s.Leaves s')
      (shorter : s'.left.length < s.left.length) (fault : s'.source.fault = s.source.fault)
      (same : s.cursor.next depth = (.ok (some d), s'.cursor)) : Parsed s depth (.ok (some d) s')
  | atEnd (leaves : s.Leaves s.ended) (same : s.cursor.next depth = (.ok none, s.ended.cursor)) :
      Parsed s depth (.ok none s.ended)
  | failed {e : Fault} {s' : TokenStream} (leaves : s.Leaves s')
      (same : s.cursor.next depth = (.error e, s'.cursor)) : Parsed s depth (.error e s')
  | overflow {s' : TokenStream} (leaves : s.Leaves s') (scanned : s.source.scanned = true)
      (ended : s'.cursor = ⟨[], none⟩) (same : (s.cursor.next depth).1 = .error .tooDeep) :
      Parsed s depth (.error .tooDeep s')

/-- **Reading a datum from a stream** is reading one with the plain cursor. -/
theorem parsed_expression {depth : Nat} (hs : s.Sound) (hfuel : s.left.length ≤ fuel) :
    Parsed s depth (expression fuel depth s) := by
  by_cases hleft : s.left = []
  · have hnext : s.cursor.next depth
        = ((Cursor.atEnd s.source.fault []).map fun () => none, ⟨[], none⟩) := by
      rw [Cursor.next, cursor, hleft, nextFrom]
    rw [expression_of_left_eq_nil hleft]
    cases hfault : s.source.fault with
    | none => exact .atEnd s.leaves_ended (by rw [hnext, hfault]; rfl)
    | some e => exact .failed s.leaves_ended (by rw [hnext, hfault]; rfl)
  · obtain ⟨t, src, hpeek, hcons, hfault, hpeeked⟩ := exists_peek hs hleft
    have htaken : s.Leaves ⟨[], src⟩ := hpeeked.trans (leaves_taken t src)
    have hnext : s.cursor.next depth = proceed src.fault src.tokens (start depth [] t) := by
      rw [Cursor.next, cursor, hcons, ← hfault, Cursor.nextFrom_cons]
      · rfl
      · exact Datum.start_ne_decline depth [] t
    rw [hcons, List.length_cons] at hfuel
    have hagrees := reads_expression fuel depth t src hfuel
    rw [expression_of_peek hpeek]
    generalize expression fuel depth ⟨[t], src⟩ = r at hagrees
    cases hagrees with
    | ok leaves fault same =>
        have hlength := leaves.suffix.length_le
        refine .done (htaken.trans leaves) ?_ (fault.trans hfault) ?_
        · rw [hcons, List.length_cons]
          exact Nat.lt_succ_of_le hlength
        · rw [hnext, same [] trivial]
          rfl
    | error leaves same =>
        exact .failed (htaken.trans leaves) (by rw [hnext, same [] trivial])
    | overflow leaves scanned ended same =>
        refine .overflow (htaken.trans leaves) (htaken.scanned.symm.trans scanned) ended ?_
        rw [hnext]
        exact same [] trivial

end TokenStream

end MiniScheme
