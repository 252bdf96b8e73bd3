import MiniScheme.Proofs.ConsoleAgreement

/-!
# `MiniScheme.Proofs.ConsoleSurvival`: a console goes on after a fault

`Outcome` says what comes of a chunk without a console: its data are
evaluated and printed in their order, up to the first fault or to the fault
of the text behind them. `outcomes` does so for one chunk after the other,
each on the machine that the one before it left, whether that one failed or
not.

`console_survives_faults` compares a console with it. After a fault that has
a report the console has said the results before the fault and one report,
keeps what was done, and takes the next chunk. So it reaches the end of its
input, unless a fault has no report, or the text of a chunk is nested too
deeply to be cut from the input. Then the console ends with the fault and
reports nothing, although the fault has a report
(`console_ends_in_nested_text`).

A console empties its journal while it speaks, so the two machines agree up
to the events in their journals (`Machine.drained`).
-/

set_option autoImplicit false

namespace MiniScheme.Console

/-! ### What comes of chunks -/

/-- What comes of a chunk: the texts of the results, the fault that ended it,
if one did, and the machine in the end. -/
structure Outcome where
  texts : List (Option String)
  fault : Option Fault
  machine : Machine

/-- Evaluates and prints data up to the first fault; `fault` is that of the
text behind them. -/
def answer (depth : Nat) (env : Ref) (fault : Option Fault) (m : Machine) : List Datum → Outcome
  | [] => ⟨[], fault, m⟩
  | d :: ds =>
    match evalPrint depth env d m with
    | .ok text m =>
      let o := answer depth env fault m ds
      { o with texts := text :: o.texts }
    | .error f m => ⟨[], some f, m⟩

/-- What comes of the chunk with this text. -/
def outcomeOf (depth : Nat) (env : Ref) (m : Machine) (source : String) : Outcome :=
  answer depth env (read depth source).2 m (read depth source).1

/-- What comes of chunks one after the other. -/
def outcomes (depth : Nat) (env : Ref) (m : Machine) : List String → List Outcome
  | [] => []
  | source :: rest =>
    let o := outcomeOf depth env m source
    o :: outcomes depth env o.machine rest

/-- The store behind the outcomes. -/
def storeAfter (m : Machine) (os : List Outcome) : Store :=
  ((os.getLast?.map Outcome.machine).getD m).store

namespace Outcome

/-- What a console says of a chunk: the results, and then the report if there
is one. -/
def utterances (o : Outcome) : List Utterance :=
  resultLines o.texts ++ ((o.fault.bind Fault.report?).map reportOf).toList

/-- The fault, if it has no report. -/
def fatal (o : Outcome) : Option Fault := o.fault.filter fun f => f.report?.isNone

theorem fatal_eq_none_iff {o : Outcome} :
    o.fatal = none ↔ ∀ f, o.fault = some f → f.report?.isSome := by
  simp [fatal, Option.isSome_iff_ne_none]

end Outcome

/-! ### What a console says of chunks -/

/-- The utterance is a result or the report of a fault: no prompt and no
event of the journal. -/
def Utterance.isAnswer (u : Utterance) : Bool :=
  match u.channel with
  | .prompt => false
  | .result => true
  | .report => "error: ".toList.isPrefixOf u.text.toList

@[simp] theorem isAnswer_eventReport (e : Event) : (eventReport e).isAnswer = false := by
  simp [Utterance.isAnswer, eventReport, Event.line, List.isPrefixOf]

@[simp] theorem isAnswer_resultOf (text : String) : (resultOf text).isAnswer = true := rfl

@[simp] theorem isAnswer_reportOf (message : String) : (reportOf message).isAnswer = true := by
  simp [Utterance.isAnswer, reportOf, List.isPrefixOf]

namespace State

/-- The results and the reports of faults, in their order. -/
def transcript (st : State) : List Utterance := (st.said.filter Utterance.isAnswer).reverse

/-- The events of the journal do not count. -/
theorem transcript_say (us : List Utterance) (st : State) :
    (st.say us).transcript = st.transcript ++ us.filter Utterance.isAnswer := by
  obtain ⟨said, m, ended⟩ := st
  have hevents : (m.events.map eventReport).filter Utterance.isAnswer = [] := by simp
  rw [say_eq, transcript, transcript, List.filter_append, List.filter_append, hevents]
  simp

theorem drained_say (us : List Utterance) (st : State) :
    (st.say us).machine.drained = st.machine.drained := by
  obtain ⟨said, m, ended⟩ := st
  rw [say_eq, Machine.drained_drained]

theorem ended_say (us : List Utterance) (st : State) : (st.say us).ended = st.ended := rfl

/-- After these utterances the console has said what comes of a chunk, and it
has ended only with a fault that has no report. -/
structure Adds (before : List Utterance) (st : State) (o : Outcome) : Prop where
  machine : st.machine.drained = o.machine.drained
  transcript : st.transcript = before ++ o.utterances
  ended : st.ended = o.fatal

end State

/-- A fault ends a chunk with its report, if it has one. -/
theorem adds_fail (st : State) {m : Machine} (hm : st.machine.drained = m.drained)
    (hended : st.ended = none) (f : Fault) :
    (st.fail f).Adds st.transcript ⟨[], some f, m⟩ := by
  have hdrained : ∀ us, (st.say us).machine.drained = m.drained :=
    fun us => (State.drained_say us st).trans hm
  unfold State.fail
  cases hf : f.report? with
  | some message =>
      refine ⟨hdrained _, ?_, ?_⟩
      · rw [State.transcript_say]
        simp [Outcome.utterances, resultLines, hf]
      · rw [State.ended_say, hended]
        simp [Outcome.fatal, Option.filter, hf]
  | none =>
      refine ⟨hdrained [], ?_, ?_⟩
      · refine (State.transcript_say [] st).trans ?_
        simp [Outcome.utterances, resultLines, hf]
      · simp [Outcome.fatal, Option.filter, hf]

/-- Machines that differ in the events of their journals answer a datum with
the same text. -/
theorem evalPrint_drained (depth : Nat) (env : Ref) (d : Datum) {m k : Machine}
    (h : k.drained = m.drained) :
    (∃ text m' k', evalPrint depth env d m = .ok text m' ∧ evalPrint depth env d k = .ok text k' ∧
      k'.drained = m'.drained) ∨
    (∃ f m' k', evalPrint depth env d m = .error f m' ∧ evalPrint depth env d k = .error f k' ∧
      k'.drained = m'.drained) := by
  have hoblivious := oblivious_evalPrint depth env d
  have hm := hoblivious.run_after m.events m.drained
  have hk := hoblivious.run_after k.events k.drained
  rw [Machine.after_events] at hm hk
  rw [h] at hk
  cases hrun : evalPrint depth env d m.drained with
  | ok text l =>
      rw [hrun] at hm hk
      exact .inl ⟨text, _, _, hm, hk, by rw [Machine.drained_after, Machine.drained_after]⟩
  | error f l =>
      rw [hrun] at hm hk
      exact .inr ⟨f, _, _, hm, hk, by rw [Machine.drained_after, Machine.drained_after]⟩

/-- The console says what comes of a chunk. -/
theorem adds_evalChunk {depth : Nat} {env : Ref} {fault : Option Fault} (data : List Datum) :
    ∀ {st : State} {m : Machine}, st.machine.drained = m.drained → st.ended = none →
      (evalChunk depth env fault st data).Adds st.transcript (answer depth env fault m data) := by
  induction data with
  | nil =>
      intro st m hm hended
      cases fault with
      | none => exact ⟨hm, (List.append_nil _).symm, hended⟩
      | some f => exact adds_fail st hm hended f
  | cons d data ih =>
      rintro ⟨said, k, ended⟩ m hm hended
      obtain ⟨text, m', k', hm', hk', hdrained⟩ | ⟨f, m', k', hm', hk', hdrained⟩ :=
        evalPrint_drained depth env d hm
      · have hsay : (State.say (text.map resultOf).toList ⟨said, k', ended⟩).machine.drained
            = m'.drained := (State.drained_say _ _).trans hdrained
        have hrest := ih hsay hended
        rw [evalChunk, answer, hk', hm']
        refine ⟨hrest.machine, ?_, hrest.ended⟩
        rw [hrest.transcript, State.transcript_say]
        show State.transcript ⟨said, k, ended⟩ ++ _ ++ _ = _
        cases text <;> simp [Outcome.utterances, resultLines, List.filter]
      · rw [evalChunk, answer, hk', hm']
        exact adds_fail ⟨said, k', ended⟩ hdrained hended f

/-! ### A whole input -/

/-- A step that is a chunk: the console says what comes of it. -/
theorem adds_chunk (depth : Nat) (env : Ref) {st : State} {m : Machine}
    (hm : st.machine.drained = m.drained) (hended : st.ended = none) (source : String) :
    (st.step depth env (.chunk source)).Adds st.transcript (outcomeOf depth env m source) :=
  adds_evalChunk _ hm hended

theorem storeAfter_cons (m : Machine) (o : Outcome) (os : List Outcome) :
    storeAfter m (o :: os) = storeAfter o.machine os := by
  cases os <;> simp [storeAfter, List.getLast?_cons]

/-- Steps are taken to their end if and only if none of them ends the
console; then it has said what comes of all chunks. -/
theorem steps_outcomes (depth : Nat) (env : Ref) (steps : List Step) :
    ∀ (st : State) {m : Machine}, st.machine.drained = m.drained → st.ended = none →
      ((st.steps depth env steps).ended = none ↔ .tooDeep ∉ steps ∧
        ∀ o ∈ outcomes depth env m (chunksOf steps), o.fatal = none) ∧
      ((st.steps depth env steps).ended = none →
        (st.steps depth env steps).transcript = st.transcript ++
          (outcomes depth env m (chunksOf steps)).flatMap Outcome.utterances ∧
        (st.steps depth env steps).machine.store
          = storeAfter m (outcomes depth env m (chunksOf steps))) := by
  induction steps with
  | nil =>
      intro st m hm hended
      have hstore : st.machine.store = m.store := by
        rw [← Machine.drained_store, hm, Machine.drained_store]
      simp [State.steps, hended, chunksOf, outcomes, storeAfter, hstore]
  | cons step steps ih =>
      intro st m hm hended
      cases step with
      | prompt text =>
          have hsay : (st.say [⟨.prompt, text⟩]).transcript = st.transcript :=
            (State.transcript_say _ st).trans (List.append_nil _)
          have hrest := ih _ ((State.drained_say [⟨.prompt, text⟩] st).trans hm) hended
          have hsteps : st.steps depth env (.prompt text :: steps)
              = (st.say [⟨.prompt, text⟩]).steps depth env steps := State.steps_cons hended
          rw [hsteps]
          simpa [chunksOf, hsay] using hrest
      | chunk source =>
          have hadds := adds_chunk depth env hm hended source
          cases hfatal : (outcomeOf depth env m source).fatal with
          | none =>
              have hgoes := hadds.ended.trans hfatal
              have hrest := ih _ hadds.machine hgoes
              rw [hadds.transcript] at hrest
              rw [State.steps_cons hgoes]
              simpa [chunksOf, outcomes, hfatal, storeAfter_cons] using hrest
          | some f =>
              have hends := hadds.ended.trans hfatal
              simp [State.steps, hends, chunksOf, outcomes, hfatal]
      | tooDeep => simp [State.steps, State.step]

/-- Steps are taken one after the other. -/
theorem steps_append {depth : Nat} {env : Ref} (before : List Step) (after : List Step) :
    ∀ {st : State}, (st.steps depth env before).ended = none →
      st.steps depth env (before ++ after)
        = (st.steps depth env before).steps depth env after := by
  induction before with
  | nil => exact fun _ => rfl
  | cons step before ih =>
      intro st hended
      cases hstep : (st.step depth env step).ended with
      | none =>
          rw [State.steps_cons hstep] at hended
          rw [List.cons_append, State.steps_cons hstep, State.steps_cons hstep, ih hended]
      | some f => simp [State.steps, hstep] at hended

end Console

open Console (State outcomeOf outcomes chunksOf resultLines reportOf storeAfter)

/-- **A console goes on after a fault.** Take any input, limit, frame and
machine.

* When the console has come to a chunk, and the chunk ends in a fault with a
  report, then the console says the results before the fault and that one
  report, has the store with what was done before the fault, and goes on with
  the steps behind the chunk.
* It reaches the end of its input if and only if all text could be cut into
  chunks and every fault of a chunk has a report. Then it has said the results
  of all chunks and one report for every chunk that failed, in their order,
  and its store is the one behind the last chunk. -/
theorem console_survives_faults (depth : Nat) (env : Ref) (interactive : Bool) (input : String)
    (m : Machine) :
    (∀ before source after,
      Console.steps depth interactive input = before ++ .chunk source :: after →
      ∀ st : State, st = State.steps depth env { machine := m } before → st.ended = none →
      ∀ f message, (outcomeOf depth env st.machine source).fault = some f →
        f.report? = some message →
        ∃ st' : State, st'.ended = none ∧
          st'.transcript = st.transcript ++
            (resultLines (outcomeOf depth env st.machine source).texts ++ [reportOf message]) ∧
          st'.machine.store = (outcomeOf depth env st.machine source).machine.store ∧
          Console.run depth env interactive input m = st'.steps depth env after) ∧
    ((Console.run depth env interactive input m).ended = none ↔
      .tooDeep ∉ Console.steps depth interactive input ∧
      ∀ o ∈ outcomes depth env m (chunksOf (Console.steps depth interactive input)),
        ∀ f, o.fault = some f → f.report?.isSome) ∧
    ((Console.run depth env interactive input m).ended = none →
      (Console.run depth env interactive input m).transcript
        = (outcomes depth env m (chunksOf (Console.steps depth interactive input))).flatMap
            (fun o => resultLines o.texts ++
              ((o.fault.bind Fault.report?).map reportOf).toList) ∧
      (Console.run depth env interactive input m).machine.store
        = storeAfter m
            (outcomes depth env m (chunksOf (Console.steps depth interactive input)))) := by
  refine ⟨?_, ?_⟩
  · intro before source after hsteps st hst hended f message hfault hreport
    have hadds := Console.adds_chunk depth env rfl hended source
    have hgoes : (st.step depth env (.chunk source)).ended = none := by
      rw [hadds.ended, Console.Outcome.fatal_eq_none_iff, hfault]
      intro g hg
      cases hg
      rw [hreport]
      rfl
    refine ⟨st.step depth env (.chunk source), hgoes, ?_, ?_, ?_⟩
    · rw [hadds.transcript, Console.Outcome.utterances, hfault]
      simp [hreport]
    · rw [← Machine.drained_store, hadds.machine, Machine.drained_store]
    · rw [Console.run, hsteps, Console.steps_append before _ (hst ▸ hended), ← hst,
        State.steps_cons hgoes]
  · have hwhole := Console.steps_outcomes depth env (Console.steps depth interactive input)
      { machine := m } rfl rfl
    simp only [Console.Outcome.fatal_eq_none_iff] at hwhole
    exact hwhole

/-- A chunk with two results, a fault and a call that is not made any more, a
line that cannot be read, a chunk after them, and a form that the input does
not finish. -/
def faultyDialogue : String := "(set! it 1) it (nope) (set! it\n 2)\n)\nit\n(it"

/-- The theorem at that text: each of the three faults is reported once, and
the first one keeps what was done before it. -/
theorem console_survives_faulty_dialogue :
    (Console.run 8 0 true faultyDialogue dialogueMachine).ended = none ∧
    (Console.run 8 0 true faultyDialogue dialogueMachine).transcript
      = [⟨.result, "1\n"⟩, ⟨.result, "1\n"⟩, ⟨.report, "error: Unbound variable nope\n"⟩,
        ⟨.report, "error: Unmatched ')'\n"⟩, ⟨.result, "1\n"⟩,
        ⟨.report, "error: Unmatched '('\n"⟩] := by
  obtain ⟨-, hends, htranscript⟩ :=
    console_survives_faults 8 0 true faultyDialogue dialogueMachine
  have hended : (Console.run 8 0 true faultyDialogue dialogueMachine).ended = none := by
    refine hends.mpr ⟨by decide +kernel, ?_⟩
    have hall : (outcomes 8 0 dialogueMachine
        (chunksOf (Console.steps 8 true faultyDialogue))).all
          (fun o => o.fault.all fun f => f.report?.isSome) = true := by decide +kernel
    intro o ho f hf
    have ho := List.all_eq_true.mp hall o ho
    rwa [hf] at ho
  refine ⟨hended, (htranscript hended).1.trans ?_⟩
  decide +kernel

/-- Text that is nested too deeply to be cut into chunks ends the console: it
does not report the fault, though the fault has a report, and does not come to
the next line. -/
theorem console_ends_in_nested_text :
    (read 2 "(((1)))\n").2 = some .tooDeep ∧
    Fault.tooDeep.report? = some "maximum recursion depth exceeded" ∧
    Console.lines "(((1)))\n1\n" = ["(((1)))\n", "1\n"] ∧
    (Console.run 2 0 false "(((1)))\n1\n" dialogueMachine).ended = some .tooDeep ∧
    (Console.run 2 0 false "(((1)))\n1\n" dialogueMachine).said = [] := by
  decide +kernel

end MiniScheme
