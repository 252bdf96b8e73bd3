import MiniScheme.Proofs.LineEnds
import MiniScheme.Proofs.Lockstep

/-!
# `MiniScheme.Proofs.Pieces`: programs run in pieces of whole lines

A program that is cut behind a newline can be run in pieces. The pieces are
read as the whole is (`MiniScheme.Proofs.LineEnds`), and data that are
evaluated in two rows are evaluated in one (`evalData_append`). What remains
is which fault comes first. A fault of evaluation ends a program where it
arises, so nothing that is written later makes a difference to it, and
evaluation has no fault that speaks of a place in the text
(`legible_evaluate`), so only the fault of the text itself is shifted.

`run_append_lines` puts this together.
-/

set_option autoImplicit false

namespace MiniScheme

/-! ### Faults of evaluation -/

/-- The computation never fails with a fault of source text. -/
def Legible {α : Type} (x : Eval α) : Prop := ∀ m e m', x m ≠ .error (.reading e) m'

namespace Legible

variable {α β : Type}

theorem bind {x : Eval α} {f : α → Eval β} (hx : Legible x) (hf : ∀ a, Legible (f a)) :
    Legible (x >>= f) := by
  intro m e m' h
  rcases bind_eq_error h with h | ⟨a, k, -, h⟩
  · exact hx m e m' h
  · exact hf a k e m' h

theorem examine {f : Store → Except Fault α} (hf : Query f f) : Legible (examine f) := by
  intro m e m' h
  unfold MiniScheme.examine at h
  split at h
  · cases h
  · rename_i heq
    cases h
    exact (hf.legible m.store e).1 heq

/-- A note fails for nesting only. -/
theorem note (f : Store → Except Fault Event) : Legible (note f) := by
  intro m e m' h
  unfold MiniScheme.note at h
  split at h
  · cases h
  · split at h <;> cases h

/-- No action has a fault of source text. -/
def actions : Trait where
  Holds := Legible
  pure _ := by rintro m e m' ⟨⟩
  bind := .bind
  throw hf := by rintro m e m' ⟨⟩; exact hf e rfl
  inquire _ := by rintro m e m' ⟨⟩
  change _ := by rintro m e m' ⟨⟩
  examine := .examine
  note _ := .note _

end Legible

/-- Evaluation never fails with a fault of source text. -/
theorem legible_evaluate (depth : Nat) (env : Ref) (expr : Value) :
    Legible (evaluate depth env expr) :=
  Legible.actions.evaluate (fun _ => by rintro m e m' ⟨⟩) (fun _ => by rintro m e m' ⟨⟩)
    depth env expr

/-! ### Rows of data -/

section

variable {F : Type} [HostFunctions F] {depth : Nat} {env : Ref}

theorem legible_evalData (data : List Datum) :
    ∀ result, Legible (evalData depth env result data) := by
  induction data with
  | nil => rintro result m e m' ⟨⟩
  | cons d data ih =>
      intro result
      have hload : Legible (load d) := by rintro m e m' ⟨⟩
      exact hload.bind fun expr => (legible_evaluate depth env expr).bind fun v => ih v

/-- Two rows of data are evaluated one after the other. -/
theorem evalData_append (xs ys : List Datum) : ∀ result,
    (evalData depth env result (xs ++ ys) : EvalOn F Value)
      = evalData depth env result xs >>= fun v => evalData depth env v ys := by
  induction xs with
  | nil => intro result; rfl
  | cons d xs ih =>
      intro result
      simp only [List.cons_append, evalData, bind_assoc, ih]

/-- A row that is not empty does not depend on the value before it. -/
theorem evalData_result {data : List Datum} (h : data ≠ []) (v w : Value) :
    (evalData depth env v data : EvalOn F Value) = evalData depth env w data := by
  cases data with
  | nil => exact absurd rfl h
  | cons d data => rfl

/-- What a program does once its data are evaluated. -/
def conclude (fault : Option Fault) (v : Value) : EvalOn F Value :=
  match fault with
  | none => pure v
  | some f => throw f

theorem run_eq {source : String} {data : List Datum} {fault : Option Fault}
    (h : read depth source = (data, fault)) :
    (run depth env source : EvalOn F Value)
      = evalData depth env .emptySequence data >>= conclude fault := by
  rw [run, h]
  rfl

/-- A fault among the first data of a program is the fault of the program,
whatever follows them. -/
theorem run_eq_error_of_first {source : String} {data : List Datum} {m k : Machine} {f : Fault}
    (hfirst : data <+: (read depth source).1)
    (hfail : evalData depth env .emptySequence data m = .error f k) :
    run depth env source m = .error f k := by
  obtain ⟨rest, hrest⟩ := hfirst
  rw [run_eq (Prod.ext hrest.symm rfl), evalData_append, bind_assoc, bind_run_error hfail]

end

/-! ### Pieces of a program -/

/-- Two outcomes in a row: that of whole lines, and that of the text `t`
behind them, run on the machine that the lines leave. The value is that of
the lines if `t` holds no data, and faults count positions from the start of
the lines. -/
def outcomeBehind (depth : Nat) (env : Ref) (s t : String) (m : Machine) :
    EStateM.Result Fault Machine Value :=
  match run depth env s m with
  | .error f k => .error f k
  | .ok v k =>
    match run depth env t k with
    | .error f k => .error (f.shifted s.length) k
    | .ok w k => .ok (if (read depth t).1.isEmpty then v else w) k

theorem run_append_of_read {depth : Nat} (env : Ref) {s t : String} (m : Machine)
    {data : List Datum} (hs : read depth s = (data, none))
    (happend : read depth (s ++ t)
      = (data ++ (read depth t).1, (read depth t).2.map (Fault.shifted s.length))) :
    run depth env (s ++ t) m = outcomeBehind depth env s t m := by
  obtain ⟨more, fault, ht⟩ : ∃ more fault, read depth t = (more, fault) := ⟨_, _, rfl⟩
  simp only [ht] at happend
  rw [outcomeBehind, run_eq happend, run_eq hs, run_eq ht, ht, evalData_append, bind_assoc]
  cases hdata : evalData depth env .emptySequence data m with
  | error f k => rw [bind_run_error hdata, bind_run_error hdata]
  | ok v k =>
      have hconclude : (evalData depth env .emptySequence data >>= conclude none) m = .ok v k :=
        bind_run_ok hdata
      rw [bind_run_ok hdata, hconclude]
      cases more with
      | nil =>
          -- Nothing is evaluated; the text may still have a fault.
          cases fault <;> rfl
      | cons d more =>
          rw [evalData_result (by simp) v .emptySequence]
          cases hmore : evalData depth env .emptySequence (d :: more) k with
          | error f k' =>
              have hshifted : f.shifted s.length = f := by
                cases f with
                | reading e => exact absurd hmore (legible_evalData _ _ _ _ _)
                | _ => rfl
              simp only [bind_run_error hmore, hshifted]
          | ok w k' =>
              simp only [bind_run_ok hmore]
              cases fault <;> rfl

/-- **Running a program is compositional at the ends of lines.** Let `s` be
whole lines and `t` any text.

* If `s` is read without a fault, then `s ++ t` has the outcome of `s`, and,
  when `s` runs to its end, that of `t` on the machine that `s` leaves.
* If `s` has a fault that is not an incomplete one, then `s ++ t` has the
  outcome of `s`.
* A fault of evaluation among the data of `s` is the outcome of `s ++ t`, with
  the machine as it was left there, whatever `t` is and however `s` ends. -/
theorem run_append_lines (depth : Nat) (env : Ref) (s t : String) (m : Machine)
    (hs : EndsLine s) :
    ((read depth s).2 = none → run depth env (s ++ t) m = outcomeBehind depth env s t m) ∧
    (∀ e, (read depth s).2 = some (.reading e) → e.isIncomplete = false →
      run depth env (s ++ t) m = run depth env s m) ∧
    (∀ f k, evalData depth env .emptySequence (read depth s).1 m = .error f k →
      run depth env (s ++ t) m = .error f k) := by
  obtain ⟨data, ⟨hread, happend⟩ | ⟨e, hincomplete, hread, hstarts⟩ | ⟨f, hfinal, hread, hstays⟩⟩ :=
    read_append_cases depth hs
  · have hfirst : data <+: (read depth (s ++ t)).1 := by rw [happend]; simp
    rw [hread]
    exact ⟨fun _ => run_append_of_read env m hread (happend t), by simp,
      fun f k hfail => run_eq_error_of_first hfirst hfail⟩
  · rw [hread]
    refine ⟨by simp, fun e' he' hcomplete => ?_,
      fun f k hfail => run_eq_error_of_first (hstarts t) hfail⟩
    cases he'
    simp [hincomplete] at hcomplete
  · have hfirst : data <+: (read depth (s ++ t)).1 := by simp [hstays]
    have hsame : run depth env (s ++ t) m = run depth env s m := by
      rw [run_eq (hstays t), run_eq hread]
    rw [hread]
    exact ⟨by simp, fun _ _ _ => hsame, fun f k hfail => run_eq_error_of_first hfirst hfail⟩

/-- Outcomes can be compared, so that programs can be run in proofs. -/
instance decidableEqResult {ε σ α : Type} [DecidableEq ε] [DecidableEq σ] [DecidableEq α] :
    DecidableEq (EStateM.Result ε σ α)
  | .ok a s, .ok b t => decidable_of_iff (a = b ∧ s = t) (by simp)
  | .error e s, .error f t => decidable_of_iff (e = f ∧ s = t) (by simp)
  | .ok _ _, .error _ _ => isFalse (by simp)
  | .error _ _, .ok _ _ => isFalse (by simp)

/-- A machine with one variable. -/
def piecesMachine : Machine := { store := { frames := #[⟨[("it", .symbol "void")], none⟩] } }

/-- The theorem at lines before an open string, before a comment, with a
parenthesis too much, and with a variable that is not bound before text that
is wrong itself. -/
theorem run_append_lines_examples :
    run 8 0 ("(set! it \"a\")\n" ++ "it \"b") piecesMachine
      = .error (.reading (.openString 17)) (outcome (run 8 0 "(set! it \"a\")" piecesMachine)) ∧
    run 8 0 ("(set! it #t)\n" ++ "; it") piecesMachine
      = .ok (.boolean true) (outcome (run 8 0 "(set! it #t)" piecesMachine)) ∧
    run 8 0 ("(set! it #t) )\n" ++ "(set! it #f)") piecesMachine
      = run 8 0 "(set! it #t) )\n" piecesMachine ∧
    run 8 0 ("(set! it #t) that (\n" ++ "))") piecesMachine
      = .error (.unbound "that") (outcome (run 8 0 "(set! it #t) that" piecesMachine)) := by
  refine ⟨?_, ?_, ?_, ?_⟩
  · exact ((run_append_lines 8 0 "(set! it \"a\")\n" "it \"b" piecesMachine (by decide)).1
      (by decide +kernel)).trans (by decide +kernel)
  · exact ((run_append_lines 8 0 "(set! it #t)\n" "; it" piecesMachine (by decide)).1
      (by decide +kernel)).trans (by decide +kernel)
  · exact (run_append_lines 8 0 "(set! it #t) )\n" "(set! it #f)" piecesMachine (by decide)).2.1
      .strayClose (by decide +kernel) (by decide)
  · exact (run_append_lines 8 0 "(set! it #t) that (\n" "))" piecesMachine (by decide)).2.2
      _ _ (by decide +kernel)

end MiniScheme
