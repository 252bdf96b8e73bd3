import MiniScheme.Proofs.CodeRoles
import MiniScheme.Proofs.Lockstep
import MiniScheme.Proofs.SyntaxTree

/-!
# `MiniScheme.Proofs.Analysis`: trees of expressions stay

The tree of an expression is made from pairs of code. Such a pair lies behind
its parts, so analysis gets to every part of an expression (`analyse_eq`), and
no program changes it, so an expression has the same tree at all times
(`analyse_kept`).

Both follow from one statement about a single level of analysis,
`analyseWith_congr`: what is made of an expression depends on its code and on
what is made of its parts.
-/

set_option autoImplicit false

namespace MiniScheme

theorem Cell.Before.rank_car {c : Cell} {r : Ref} (h : c.Before r) : c.car.rank ≤ r := by
  cases hcar : c.car with
  | pair q => exact h.1 q hcar
  | _ => exact Nat.zero_le r

theorem Cell.Before.rank_cdr {c : Cell} {r : Ref} (h : c.Before r) : c.cdr.rank ≤ r := by
  cases hcdr : c.cdr with
  | pair q => exact h.2 q hcdr
  | _ => exact Nat.zero_le r

namespace CodeWorld

variable {w w' : CodeWorld} {f g : Value → Tree} {v expr tail : Value}

/-- The elements of a chain of code are older than its first pair. -/
theorem rank_lt_of_mem_spine {items : List Value} {last : Value}
    (h : w.store.Spine v items last) :
    ∀ {role : Role}, role ≠ .datum → w.Plays role v → ∀ e ∈ items, e.rank < v.rank := by
  induction h with
  | last => intro role _ _ e he; exact absurd he List.not_mem_nil
  | @link v last c items cell _ ih =>
      intro role hne hv e he
      obtain ⟨r, rfl, hr⟩ := Store.cell?_eq_some cell
      obtain ⟨-, rfl⟩ := hv r rfl
      -- A pair of code is younger than both of its parts.
      have hbefore := w.descends r c hr hne
      show e.rank < r + 1
      rcases List.mem_cons.mp he with rfl | he
      · have hcar := hbefore.rank_car
        omega
      · have hrest := ih (Role.onCdr_ne_datum hne c) (w.cells r c hr).2 e he
        have hcdr := hbefore.rank_cdr
        omega

/-- A chain of code is found, now and later. -/
theorem spine?_kept {role : Role} (hle : w ≤ w') (hrole : role ≠ .datum) (hv : w.Plays role v) :
    ∃ items last, w.store.Spine v items last ∧ w.store.spine? v = some (items, last) ∧
      w'.store.spine? v = some (items, last) := by
  obtain ⟨items, last, hspine⟩ := exists_spine hv hrole
  exact ⟨items, last, hspine, Store.spine?_eq_some_iff.mpr hspine,
    Store.spine?_eq_some_iff.mpr (spine_of_code hle.code hspine hrole hv)⟩

/-- Elements of a list of expressions are analysed alike. -/
theorem parts_congr {items : List Value} {last : Value} (hspine : w.store.Spine v items last)
    (hv : w.Plays .operands v)
    (h : ∀ e, w.Plays .expression e → e.rank < v.rank → f e = g e) : ∀ e ∈ items, f e = g e :=
  fun e he => h e (discipline.expressions hspine hv e he)
    (rank_lt_of_mem_spine hspine (by decide) hv e he)

theorem analyseForm_congr (hle : w ≤ w') {form : Form} (htail : w.Plays form.operandsRole tail)
    (h : ∀ e, w.Plays .expression e → e.rank < tail.rank → f e = g e) :
    w'.store.analyseForm f form tail = w.store.analyseForm g form tail := by
  have hrole : form.operandsRole ≠ .datum := by cases form <;> decide
  obtain ⟨items, last, hspine, hnow, hlater⟩ := spine?_kept hle hrole htail
  unfold Store.analyseForm
  rw [hnow, hlater]
  dsimp only
  split
  · rfl
  · unfold Tree.ofForm
    cases form with
    | quote => rfl
    | conditional =>
        have hparts := parts_congr hspine htail h
        rcases items with - | ⟨test, - | ⟨consequent, - | ⟨alternative, - | ⟨extra, more⟩⟩⟩⟩
        · rfl
        · rfl
        · simp [hparts]
        · simp [hparts]
        · rfl
    | begin => exact congrArg Tree.sequence (List.map_congr_left (parts_congr hspine htail h))
    | assignment =>
        have hparts := parts_congr hspine htail h
        rcases items with - | ⟨target, - | ⟨e, - | ⟨extra, more⟩⟩⟩
        · rfl
        · cases target <;> rfl
        · cases target <;> simp [hparts]
        · cases target <;> rfl
    | lambda =>
        cases hspine with
        | last => rfl
        | @link _ _ c body cell rest =>
            -- The first element are the parameters; those behind it are analysed.
            obtain ⟨r, rfl, hr⟩ := Store.cell?_eq_some cell
            have hcdr : w.Plays .operands c.cdr := discipline.cdr hr htail
            have hbefore : c.Before r := by
              refine w.descends r c hr ?_
              rw [(htail r rfl).2]
              decide
            refine congrArg (Tree.abstraction c.car) (List.map_congr_left ?_)
            exact parts_congr rest hcdr fun e he hlt =>
              h e he (Nat.lt_succ_of_lt (Nat.lt_of_lt_of_le hlt hbefore.rank_cdr))

theorem analyseCall_congr (hle : w ≤ w') {head : Value} (htail : w.Plays .operands tail)
    (hhead : f head = g head)
    (h : ∀ e, w.Plays .expression e → e.rank < tail.rank → f e = g e) :
    w'.store.analyseCall f expr head tail = w.store.analyseCall g expr head tail := by
  obtain ⟨items, last, hspine, hnow, hlater⟩ := spine?_kept hle (by decide) htail
  unfold Store.analyseCall
  rw [hnow, hlater]
  dsimp only
  rw [hhead, List.map_congr_left (parts_congr hspine htail h)]

/-- One level of analysis depends on the code and on what is made of the
parts, which are older. -/
theorem analyseWith_congr (hle : w ≤ w') (hexpr : w.Plays .expression expr)
    (h : ∀ e, w.Plays .expression e → e.rank < expr.rank → f e = g e) :
    w'.store.analyseWith f expr = w.store.analyseWith g expr := by
  cases expr with
  | pair r =>
      obtain ⟨hlt, hrole⟩ := hexpr r rfl
      have hcode : w.roles r ≠ .datum := by simp [hrole]
      have hcell : w.store.cells[r]? = some w.store.cells[r] := Array.getElem?_eq_getElem hlt
      have hbefore := w.descends r _ hcell hcode
      have hcar := discipline.car hcell hexpr
      have hcdr := discipline.cdr hcell hexpr
      have hparts : ∀ e, w.Plays .expression e → e.rank < w.store.cells[r].cdr.rank → f e = g e :=
        fun e he hlt => h e he (Nat.lt_succ_of_lt (Nat.lt_of_lt_of_le hlt hbefore.rank_cdr))
      unfold Store.analyseWith
      simp only [Store.cell?, hle.code r hlt hcode, hcell]
      -- The head decides which role the operands have.
      cases hform : Form.ofHead? w.store.cells[r].car with
      | some form =>
          simp only [Role.onCdr, hform] at hcdr
          exact analyseForm_congr hle hcdr hparts
      | none =>
          simp only [Role.onCdr, hform] at hcdr
          exact analyseCall_congr hle hcdr
            (h _ hcar (Nat.lt_succ_of_le hbefore.rank_car)) hparts
  | _ => rfl

/-- Analysis gets to all parts of an expression. -/
theorem analyse_eq (hexpr : w.Plays .expression expr) :
    w.store.analyse expr = w.store.analyseWith w.store.analyse expr := by
  rw [Store.analyse]
  exact analyseWith_congr (le_refl w) hexpr fun e _ hlt => if_pos hlt

/-- Expressions have the same tree at all times. -/
theorem analyse_kept (hle : w ≤ w') (hexpr : w.Plays .expression expr) :
    w'.store.analyse expr = w.store.analyse expr := by
  -- On the age of the expression, which bounds that of its parts.
  induction hn : expr.rank using Nat.strongRecOn generalizing expr with
  | ind n ih =>
      rw [analyse_eq (hexpr.grown hle), analyse_eq hexpr]
      exact analyseWith_congr hle hexpr fun e he hlt => ih e.rank (hn ▸ hlt) he rfl

theorem map_analyse_kept (hle : w ≤ w') {items : List Value}
    (hitems : ∀ e ∈ items, w.Plays .expression e) :
    items.map w'.store.analyse = items.map w.store.analyse :=
  List.map_congr_left fun e he => analyse_kept hle (hitems e he)

end CodeWorld

namespace Store

theorem analyseBody_eq {s : Store} {body last : Value} {items : List Value}
    (h : s.Spine body items last) : s.analyseBody body = items.map s.analyse := by
  rw [analyseBody, spine?_eq_some_iff.mpr h]
  rfl

end Store

theorem CodeWorld.analyseBody_kept {w w' : CodeWorld} (hle : w ≤ w') {body : Value}
    (hbody : w.Plays .operands body) :
    w'.store.analyseBody body = w.store.analyseBody body := by
  obtain ⟨items, last, hspine, -, hlater⟩ := spine?_kept hle (by decide) hbody
  rw [Store.analyseBody_eq hspine, Store.analyseBody_eq (Store.spine?_eq_some_iff.mp hlater)]
  exact map_analyse_kept hle (discipline.expressions hspine hbody)

/-- Analysis does not look at closures. -/
theorem Store.analyse_withoutBodies (s : Store) (expr : Value) :
    s.withoutBodies.analyse expr = s.analyse expr := by
  have hwith (part : Value → Tree) (expr : Value) :
      s.withoutBodies.analyseWith part expr = s.analyseWith part expr := by
    simp only [analyseWith, analyseForm, analyseCall, spine?_withoutBodies]
    rfl
  induction hn : expr.rank using Nat.strongRecOn generalizing expr with
  | ind n ih =>
      rw [analyse, analyse, hwith]
      -- What is left is what is made of the parts; younger ones are cut off on both sides.
      congr 1
      funext e
      split
      · rename_i hlt
        exact ih e.rank (hn ▸ hlt) e rfl
      · rfl

end MiniScheme
