import MiniScheme.Console
import MiniScheme.Proofs.Chunks
import MiniScheme.Proofs.JournalIndependence

/-!
# `MiniScheme.Proofs.ConsoleAgreement`: a console does what a program does

A console cuts its input into chunks, prompts between them, and empties its
journal whenever it says something. None of this makes a difference to the
program that it runs. If the whole input can be read and evaluated, and its
results can be written, then the console evaluates the same data in the same
order, says the results and what a journal holds, and leaves the same store
(`console_agrees_run`).

* `State.settled` is a console state without its prompts and with an empty
  journal. Evaluating a chunk respects it (`settled_evalChunk`), so prompts
  between chunks do not count.
* `Answers` is a row of data that are all evaluated and printed. Then the
  console goes on behind every chunk, and chunks can be put together
  (`settled_steps`).
* `State.Follows` ties a console to a machine that keeps all events in its
  journal: the console has reported the older ones.
-/

set_option autoImplicit false

namespace MiniScheme

/-- The events in the journal, the last one first. -/
def Machine.events (m : Machine) : List Event := m.journal.getD []

/-- The machine with an empty journal, if it keeps one. -/
def Machine.drained (m : Machine) : Machine := { m with journal := m.journal.map fun _ => [] }

namespace Machine

@[simp] theorem drained_store (m : Machine) : m.drained.store = m.store := rfl

@[simp] theorem drained_drained (m : Machine) : m.drained.drained = m.drained := by
  obtain ⟨store, _ | events⟩ := m <;> rfl

@[simp] theorem events_drained (m : Machine) : m.drained.events = [] := by
  obtain ⟨store, _ | events⟩ := m <;> rfl

@[simp] theorem drained_after (older : List Event) (m : Machine) :
    (m.after older).drained = m.drained := by
  obtain ⟨store, _ | events⟩ := m <;> rfl

/-- The events of the journal happened before those to come. -/
theorem after_events (m : Machine) : m.drained.after m.events = m := by
  obtain ⟨store, _ | events⟩ := m <;> rfl

theorem after_after (older newer : List Event) (m : Machine) :
    (m.after newer).after older = m.after (newer ++ older) := by
  obtain ⟨store, _ | events⟩ := m <;> simp [Machine.after]

/-- Older events are in the journal, if one is kept. -/
theorem events_after {older : List Event} {m : Machine}
    (h : m.journal.isSome = false → older = []) : (m.after older).events = m.events ++ older := by
  obtain ⟨store, _ | events⟩ := m
  · simp [h rfl, Machine.events, Machine.after]
  · rfl

end Machine

namespace Console

/-! ### What a console says -/

/-- The report of an event. -/
def eventReport (e : Event) : Utterance := ⟨.report, e.line⟩

theorem drain_eq (m : Machine) : drain m = (m.events.reverse.map eventReport, m.drained) := by
  obtain ⟨store, _ | events⟩ := m <;> rfl

namespace State

theorem say_eq (us said : List Utterance) (m : Machine) (ended : Option Fault) :
    say us ⟨said, m, ended⟩
      = ⟨us.reverse ++ (m.events.map eventReport ++ said), m.drained, ended⟩ := by
  simp [say, drain_eq, ← List.map_reverse]

/-- All that is said on a channel, in its order. -/
def on (c : Channel) (st : State) : List Utterance :=
  (st.said.filter fun u => u.channel = c).reverse

/-- What has been said, prompts aside. -/
def spoken (us : List Utterance) : List Utterance := us.filter fun u => u.channel ≠ .prompt

/-- The state without the prompts, after the events that are still in the
journal. -/
def settled (st : State) : State :=
  let st := st.say []
  { st with said := spoken st.said }

theorem spoken_append (us vs : List Utterance) : spoken (us ++ vs) = spoken us ++ spoken vs :=
  List.filter_append ..

@[simp] theorem spoken_spoken (us : List Utterance) : spoken (spoken us) = spoken us := by
  simp [spoken]

@[simp] theorem spoken_events (es : List Event) :
    spoken (es.map eventReport) = es.map eventReport := by
  simp [spoken, eventReport]

theorem settled_eq (said : List Utterance) (m : Machine) (ended : Option Fault) :
    settled ⟨said, m, ended⟩ = ⟨m.events.map eventReport ++ spoken said, m.drained, ended⟩ := by
  rw [settled, say_eq, List.reverse_nil, List.nil_append, spoken_append, spoken_events]

theorem settled_say (us said : List Utterance) (m : Machine) (ended : Option Fault) :
    settled (say us ⟨said, m, ended⟩)
      = ⟨spoken us.reverse ++ (m.events.map eventReport ++ spoken said), m.drained, ended⟩ := by
  rw [say_eq, settled_eq, spoken_append, spoken_append, spoken_events, Machine.events_drained,
    Machine.drained_drained]
  rfl

/-- A prompt does not count. -/
theorem settled_say_prompt (text : String) (st : State) :
    (st.say [⟨.prompt, text⟩]).settled = st.settled := by
  obtain ⟨said, m, ended⟩ := st
  rw [settled_say, settled_eq]
  rfl

/-- It makes no difference whether events are reported at once or stay in
the journal until more is said. -/
theorem settled_say_after {us said : List Utterance} {m k : Machine} {ended : Option Fault}
    (hkept : k.journal.isSome = m.drained.journal.isSome) :
    settled (say us ⟨said, k.after m.events, ended⟩)
      = settled (say us ⟨m.events.map eventReport ++ spoken said, k, ended⟩) := by
  have hevents : (k.after m.events).events = k.events ++ m.events := by
    refine Machine.events_after fun hnone => ?_
    obtain ⟨store, _ | events⟩ := m
    · rfl
    · exact absurd (hkept.symm.trans hnone) Bool.noConfusion
  rw [settled_say, settled_say, hevents, Machine.drained_after, spoken_append, spoken_events,
    spoken_spoken, List.map_append, List.append_assoc]

/-- The events of the journal come between what was said before and what is
said now. -/
theorem on_say (c : Channel) (us said : List Utterance) (m : Machine) (ended : Option Fault) :
    (say us ⟨said, m, ended⟩).on c = on c ⟨said, m, ended⟩ ++
      ((m.events.reverse.map eventReport).filter (fun u => u.channel = c) ++
        us.filter fun u => u.channel = c) := by
  rw [say_eq]
  simp [on]

theorem on_settled {c : Channel} (hc : c ≠ .prompt) (st : State) :
    st.settled.on c = (st.say []).on c := by
  have hchannel : ∀ u : Utterance, (u.channel = c ∧ u.channel ≠ .prompt) ↔ u.channel = c :=
    fun u => ⟨And.left, fun h => ⟨h, h ▸ hc⟩⟩
  simp only [on, settled, spoken, List.filter_filter, ← Bool.decide_and, hchannel]

/-- No event is a result. -/
theorem on_result_settled (st : State) : st.settled.on .result = st.on .result := by
  obtain ⟨said, m, ended⟩ := st
  rw [on_settled (by decide), on_say]
  simp [eventReport]

theorem settled_ended (st : State) : st.settled.ended = st.ended := rfl

theorem settled_store (st : State) : st.settled.machine.store = st.machine.store := by
  obtain ⟨said, m, ended⟩ := st
  rw [settled_eq, Machine.drained_store]

end State

/-! ### Evaluating a chunk -/

theorem oblivious_evalPrint (depth : Nat) (env : Ref) (d : Datum) :
    Oblivious (evalPrint depth env d) := by
  refine (Oblivious.load d).bind fun expr => (oblivious_evaluate depth env expr).bind fun v => ?_
  split
  · exact .pure _
  · exact (Oblivious.examine _).bind fun _ => .pure _

/-- To report a fault or to end with it is to say something. -/
theorem exists_fail_eq_say (f : Fault) (ended : Option Fault) : ∃ us ended', ∀ said m,
    State.fail f ⟨said, m, ended⟩ = State.say us ⟨said, m, ended'⟩ := by
  unfold State.fail
  cases f.report? with
  | some message => exact ⟨[reportOf message], ended, fun said m => rfl⟩
  | none => exact ⟨[], some f, fun said m => rfl⟩

/-- A chunk is evaluated the same after the console has settled. -/
theorem settled_evalChunk (depth : Nat) (env : Ref) (data : List Datum) :
    ∀ st : State, (evalChunk depth env none st data).settled
      = (evalChunk depth env none st.settled data).settled := by
  induction data with
  | nil =>
      rintro ⟨said, m, ended⟩
      simp [evalChunk, State.settled_eq, State.spoken_append]
  | cons d data ih =>
      rintro ⟨said, m, ended⟩
      have hoblivious := oblivious_evalPrint depth env d
      have hrun := hoblivious.run_after m.events m.drained
      have hkept := hoblivious.kept m.drained
      rw [Machine.after_events] at hrun
      rw [State.settled_eq said m ended, evalChunk, evalChunk, hrun]
      -- From here on only the older events make a difference.
      cases h : evalPrint depth env d m.drained with
      | ok text k =>
          replace hkept : k.journal.isSome = m.drained.journal.isSome := by rwa [h] at hkept
          dsimp only [resultAfter]
          rw [ih, State.settled_say_after hkept, ← ih]
      | error f k =>
          replace hkept : k.journal.isSome = m.drained.journal.isSome := by rwa [h] at hkept
          obtain ⟨us, ended', hfail⟩ := exists_fail_eq_say f ended
          dsimp only [resultAfter]
          rw [hfail, hfail, State.settled_say_after hkept]

/-! ### Data that are answered -/

/-- Data are evaluated and printed one after the other, without a fault:
the texts of the results, and the machine in the end. -/
inductive Answers (depth : Nat) (env : Ref) :
    Machine → List Datum → List (Option String) → Machine → Prop
  | nil (m : Machine) : Answers depth env m [] [] m
  | cons {m k m' : Machine} {d : Datum} {data : List Datum} {text : Option String}
      {texts : List (Option String)} (answer : evalPrint depth env d m = .ok text k)
      (others : Answers depth env k data texts m') :
      Answers depth env m (d :: data) (text :: texts) m'

/-- Data in a row are answered piece by piece. -/
theorem Answers.of_append {depth : Nat} {env : Ref} {m m' : Machine} {xs ys : List Datum}
    {texts : List (Option String)} (h : Answers depth env m (xs ++ ys) texts m') :
    ∃ k before behind, Answers depth env m xs before k ∧ Answers depth env k ys behind m' := by
  induction xs generalizing m texts with
  | nil => exact ⟨m, [], texts, .nil m, h⟩
  | cons d xs ih =>
      cases h with
      | cons answer others =>
          obtain ⟨k, before, behind, hbefore, hbehind⟩ := ih others
          exact ⟨k, _ :: before, behind, .cons answer hbefore, hbehind⟩

/-- The console stands where the machine `m` stands, only that it has taken
the older events out of the journal and reported them. -/
def State.Follows (st : State) (m : Machine) : Prop :=
  ∃ older, m = st.machine.after older ∧ st.on .report = older.reverse.map eventReport ∧
    (st.machine.journal.isSome = false → older = [])

namespace State.Follows

variable {depth : Nat} {env : Ref} {st : State} {m : Machine}

theorem store (h : st.Follows m) : st.machine.store = m.store := by
  obtain ⟨older, rfl, -, -⟩ := h
  rfl

/-- What it reports in the end is the journal. -/
theorem reports (h : st.Follows m) : st.settled.on .report = m.events.reverse.map eventReport := by
  obtain ⟨said, k, ended⟩ := st
  obtain ⟨older, rfl, hreports, hnone⟩ := h
  rw [on_settled (by decide), on_say, hreports, Machine.events_after hnone]
  simp [eventReport]

/-- To say something is to report what is in the journal. -/
theorem say (h : st.Follows m) (us : List Utterance) (hus : ∀ u ∈ us, u.channel ≠ .report) :
    (st.say us).Follows m := by
  obtain ⟨said, k, ended⟩ := st
  obtain ⟨older, rfl, hreports, hnone⟩ := h
  have hsilent : us.filter (fun u => u.channel = .report) = [] := by simpa using hus
  refine ⟨k.events ++ older, ?_, ?_, ?_⟩
  · rw [say_eq, ← Machine.after_after, Machine.after_events]
  · rw [on_say, hreports, hsilent]
    simp [eventReport]
  · rw [say_eq]
    obtain ⟨store, _ | events⟩ := k
    · exact fun _ => hnone rfl
    · rintro ⟨⟩

/-- A datum is answered the same, whether older events are reported or not. -/
theorem evalPrint (h : st.Follows m) {d : Datum} {text : Option String} {m' : Machine}
    (hanswer : evalPrint depth env d m = .ok text m') :
    ∃ k, Console.evalPrint depth env d st.machine = .ok text k ∧
      State.Follows { st with machine := k } m' := by
  obtain ⟨older, rfl, hreports, hnone⟩ := h
  have hoblivious := oblivious_evalPrint depth env d
  have hkept := hoblivious.kept st.machine
  rw [hoblivious.run_after] at hanswer
  cases hk : Console.evalPrint depth env d st.machine with
  | ok text' k =>
      rw [hk] at hanswer hkept
      cases hanswer
      exact ⟨k, rfl, older, rfl, hreports, fun h => hnone (hkept.symm.trans h)⟩
  | error f k =>
      rw [hk] at hanswer
      cases hanswer

end State.Follows

/-- The lines of the texts, where there is one. -/
def resultLines (texts : List (Option String)) : List Utterance :=
  texts.filterMap fun text => text.map resultOf

/-- A chunk whose data are answered: the console says the answers and goes
on. -/
theorem evalChunk_of_answers {depth : Nat} {env : Ref} {m m' : Machine} {data : List Datum}
    {texts : List (Option String)} (h : Answers depth env m data texts m') :
    ∀ st : State, st.Follows m →
      (evalChunk depth env none st data).Follows m' ∧
      (evalChunk depth env none st data).ended = st.ended ∧
      (evalChunk depth env none st data).on .result = st.on .result ++ resultLines texts ∧
      ∀ more, evalChunk depth env none st (data ++ more)
        = evalChunk depth env none (evalChunk depth env none st data) more := by
  induction h with
  | nil m => exact fun st hst => ⟨hst, rfl, (List.append_nil _).symm, fun more => rfl⟩
  | @cons m k m' d data text texts answer others ih =>
      rintro ⟨said, m, ended⟩ hst
      obtain ⟨k, hk, hfollows⟩ := hst.evalPrint answer
      have hsay := hfollows.say (text.map resultOf).toList (by cases text <;> simp [resultOf])
      have hstep : ∀ more, evalChunk depth env none ⟨said, m, ended⟩ (d :: more)
          = evalChunk depth env none
              (State.say (text.map resultOf).toList ⟨said, k, ended⟩) more := by
        intro more
        rw [evalChunk, hk]
      obtain ⟨hdata, hended, hresults, happend⟩ := ih _ hsay
      simp only [List.cons_append, hstep]
      refine ⟨hdata, hended, ?_, happend⟩
      rw [hresults, State.on_say]
      cases text <;> simp [State.on, resultLines, resultOf, eventReport]

/-! ### Steps -/

theorem State.steps_cons {depth : Nat} {env : Ref} {st : State} {step : Step} {rest : List Step}
    (h : (st.step depth env step).ended = none) :
    st.steps depth env (step :: rest) = (st.step depth env step).steps depth env rest := by
  simp [steps, h]

/-- Steps whose chunks hold data that are all answered do what one chunk of
all these data does. -/
theorem settled_steps {depth : Nat} {env : Ref} (steps : List Step) :
    ∀ {data : List Datum} {texts : List (Option String)} {m m' : Machine} (st : State),
      Delivers depth steps data → Answers depth env m data texts m' → st.Follows m →
      st.ended = none →
      (st.steps depth env steps).settled = (evalChunk depth env none st data).settled := by
  induction steps with
  | nil =>
      intro data texts m m' st hdelivers _ _ _
      cases hdelivers.data_eq
      rfl
  | cons step steps ih =>
      intro data texts m m' st hdelivers hanswers hfollows hended
      cases step with
      | prompt text =>
          have hsay : ((st.say [⟨.prompt, text⟩]).steps depth env steps).settled
              = (evalChunk depth env none (st.say [⟨.prompt, text⟩]) data).settled :=
            ih _ hdelivers.of_prompt hanswers (hfollows.say _ (by simp)) hended
          have hgoing : (st.step depth env (.prompt text)).ended = none := hended
          rw [State.steps_cons hgoing]
          calc ((st.say [⟨.prompt, text⟩]).steps depth env steps).settled
              = (evalChunk depth env none (st.say [⟨.prompt, text⟩]) data).settled := hsay
            _ = (evalChunk depth env none st.settled data).settled := by
                rw [settled_evalChunk, State.settled_say_prompt]
            _ = (evalChunk depth env none st data).settled := (settled_evalChunk _ _ _ _).symm
      | chunk source =>
          obtain ⟨before, behind, hread, hrest, rfl⟩ := hdelivers.of_chunk
          obtain ⟨k, first, others, hfirst, hothers⟩ := hanswers.of_append
          obtain ⟨hfollows', hended', -, happend⟩ := evalChunk_of_answers hfirst st hfollows
          have hstep : st.step depth env (.chunk source) = evalChunk depth env none st before := by
            rw [State.step, hread]
          rw [hended, ← hstep] at hended'
          rw [State.steps_cons hended', hstep, happend]
          exact ih _ hrest hothers hfollows' (by rw [← hstep, hended'])
      | tooDeep => exact absurd List.mem_cons_self hdelivers.shallow

/-! ### Programs -/

/-- The results of data that are evaluated one after the other, each with
the store at the time it was produced. -/
def results (depth : Nat) (env : Ref) : Machine → List Datum → List (Value × Store)
  | _, [] => []
  | m, d :: data =>
    match (load d >>= evaluate depth env) m with
    | .ok v k => (v, k.store) :: results depth env k data
    | .error _ _ => []

/-- The text that is printed for a result. -/
def printed (depth : Nat) (r : Value × Store) : Option String :=
  if r.1 = .emptySequence then none else (r.2.write depth r.1).toOption

theorem evalPrint_of_ok {depth : Nat} {env : Ref} {d : Datum} {m k : Machine} {v : Value}
    {text : String} (hv : (load d >>= evaluate depth env) m = .ok v k)
    (htext : k.store.write depth v = .ok text) :
    evalPrint depth env d m = .ok (printed depth (v, k.store)) k := by
  obtain ⟨expr, l, hload, heval⟩ := bind_eq_ok hv
  rw [evalPrint, bind_run_ok hload, bind_run_ok heval, printed]
  split
  · rfl
  · rw [bind_run, examine, htext]
    rfl

/-- The data of a program that runs to its end are answered, if the results
can be written. -/
theorem answers_of_evalData {depth : Nat} {env : Ref} {data : List Datum} {v : Value}
    {m' : Machine} : ∀ {result : Value} {m : Machine},
      evalData depth env result data m = .ok v m' →
      (∀ r ∈ results depth env m data, ∃ text, r.2.write depth r.1 = .ok text) →
      Answers depth env m data ((results depth env m data).map (printed depth)) m' := by
  induction data with
  | nil =>
      intro result m hrun _
      cases hrun
      exact .nil _
  | cons d data ih =>
      intro result m hrun hwritable
      obtain ⟨expr, l, hload, hrest⟩ := bind_eq_ok hrun
      obtain ⟨w, k, heval, hothers⟩ := bind_eq_ok hrest
      have hw : (load d >>= evaluate depth env) m = .ok w k := by rw [bind_run_ok hload, heval]
      rw [results, hw] at hwritable ⊢
      obtain ⟨text, htext⟩ := hwritable _ List.mem_cons_self
      exact .cons (evalPrint_of_ok hw htext)
        (ih hothers fun r hr => hwritable r (List.mem_cons_of_mem _ hr))

/-- Answering data neither starts nor stops a journal. -/
theorem Answers.kept {depth : Nat} {env : Ref} {m m' : Machine} {data : List Datum}
    {texts : List (Option String)} (h : Answers depth env m data texts m') :
    m'.journal.isSome = m.journal.isSome := by
  induction h with
  | nil => rfl
  | @cons m k m' d data text texts answer _ ih =>
      have hkept := (oblivious_evalPrint depth env d).kept m
      rw [answer] at hkept
      exact ih.trans hkept

end Console

open Console (Delivers evalChunk results printed resultLines drain)

/-- **A console and a program agree.** Let the whole input be read without a
fault. Then the chunks of the console can be read as well, and hold the data
of the input in their order. If the program of the whole input also runs to
its end, and every result can be written when it is produced, then the
console

* does what evaluating and printing these data one after the other does,
  prompts aside, and does not end before its input;
* says on its result channel the external form of every result that is a
  value, and on its report channel what the journal of the program holds, so
  nothing without a journal;
* leaves the store that the program leaves. -/
theorem console_agrees_run (depth : Nat) (env : Ref) (interactive : Bool) (input : String)
    (m : Machine) (hread : (read depth input).2 = none) :
    Delivers depth (Console.steps depth interactive input) (read depth input).1 ∧
    ∀ v m', run depth env input m = .ok v m' →
      (∀ r ∈ results depth env m (read depth input).1, ∃ text, r.2.write depth r.1 = .ok text) →
      (Console.run depth env interactive input m).settled
        = (evalChunk depth env none { machine := m } (read depth input).1).settled ∧
      (Console.run depth env interactive input m).ended = none ∧
      (Console.run depth env interactive input m).settled.on .result
        = resultLines ((results depth env m (read depth input).1).map (printed depth)) ∧
      (Console.run depth env interactive input m).settled.on .report = (drain m').1 ∧
      (m.journal = none → (Console.run depth env interactive input m).settled.on .report = []) ∧
      (Console.run depth env interactive input m).machine.store = m'.store := by
  obtain ⟨data, hdata⟩ : ∃ data, read depth input = (data, none) := ⟨_, Prod.ext rfl hread⟩
  have hdelivers := Console.chunks_of_read interactive hdata
  rw [hdata]
  refine ⟨hdelivers, fun v m' hrun hwritable => ?_⟩
  replace hrun : evalData depth env .emptySequence data m = .ok v m' := by
    rw [run, hdata] at hrun
    obtain ⟨w, k, heval, hend⟩ := bind_eq_ok hrun
    cases hend
    exact heval
  have hanswers := Console.answers_of_evalData hrun hwritable
  have hstart : Console.State.Follows { machine := m } m :=
    ⟨[], (Machine.after_nil m).symm, rfl, fun _ => rfl⟩
  obtain ⟨hfollows, hended, hresults, -⟩ := Console.evalChunk_of_answers hanswers _ hstart
  have hsettled : (Console.run depth env interactive input m).settled
      = (evalChunk depth env none { machine := m } data).settled :=
    Console.settled_steps _ _ hdelivers hanswers hstart rfl
  have hreports : (Console.run depth env interactive input m).settled.on .report
      = (drain m').1 := by
    rw [hsettled, hfollows.reports, Console.drain_eq]
  refine ⟨hsettled, ?_, ?_, hreports, fun hnone => ?_, ?_⟩
  · rw [← Console.State.settled_ended, hsettled, Console.State.settled_ended, hended]
  · rw [hsettled, Console.State.on_result_settled, hresults]
    rfl
  · have hnone' : m'.journal = none := by simpa [hnone] using hanswers.kept
    rw [hreports, drain, hnone']
  · rw [← Console.State.settled_store, hsettled, Console.State.settled_store, hfollows.store]

/-- A text with a string and a list that go over the ends of lines, a result
without a value, and a last line without a newline. -/
def dialogue : String := "(begin \"one\n two\") ; it\n(set! it\n '(a . b)) (begin)\nit"

/-- A machine with one variable and no journal. -/
def dialogueMachine : Machine := { store := { frames := #[⟨[("it", .symbol "void")], none⟩] } }

/-- The theorem at that text. -/
theorem console_agrees_run_dialogue :
    (Console.run 8 0 true dialogue dialogueMachine).settled.on .result
      = [⟨.result, "\"one\n two\"\n"⟩, ⟨.result, "(a . b)\n"⟩, ⟨.result, "(a . b)\n"⟩] ∧
    (Console.run 8 0 true dialogue dialogueMachine).settled.on .report = [] ∧
    (Console.run 8 0 true dialogue dialogueMachine).ended = none ∧
    (Console.run 8 0 true dialogue dialogueMachine).machine.store
      = (outcome (run 8 0 dialogue dialogueMachine)).store := by
  have hread : (read 8 dialogue).2 = none := by decide +kernel
  have hwritable : ∀ r ∈ results 8 0 dialogueMachine (read 8 dialogue).1,
      ∃ text, r.2.write 8 r.1 = .ok text := by
    have hall : (results 8 0 dialogueMachine (read 8 dialogue).1).all
        (fun r => (r.2.write 8 r.1).isOk) = true := by decide +kernel
    intro r hr
    have hr := List.all_eq_true.mp hall r hr
    cases h : r.2.write 8 r.1 with
    | ok text => exact ⟨text, rfl⟩
    | error f => simp [h, Except.isOk, Except.toBool] at hr
  have htexts : resultLines ((results 8 0 dialogueMachine (read 8 dialogue).1).map (printed 8))
      = [⟨.result, "\"one\n two\"\n"⟩, ⟨.result, "(a . b)\n"⟩, ⟨.result, "(a . b)\n"⟩] := by
    decide +kernel
  cases hrun : run 8 0 dialogue dialogueMachine with
  | ok v m' =>
      obtain ⟨-, hended, hresults, -, hreports, hstore⟩ :=
        (console_agrees_run 8 0 true dialogue dialogueMachine hread).2 v m' hrun hwritable
      exact ⟨hresults.trans htexts, hreports rfl, hended, hstore⟩
  | error f m' =>
      have hok : (match run 8 0 dialogue dialogueMachine with
        | .ok _ _ => true
        | .error _ _ => false) = true := by decide +kernel
      rw [hrun] at hok
      cases hok

end MiniScheme
