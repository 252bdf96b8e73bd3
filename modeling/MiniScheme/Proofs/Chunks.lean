import MiniScheme.Console.Chunk
import MiniScheme.Proofs.LineEnds

/-!
# `MiniScheme.Proofs.Chunks`: a text and its chunks hold the same data

A console cuts a text into chunks where a line completes what is pending.
All cuts are at the ends of lines, so `MiniScheme.Proofs.LineEnds` says how
the pieces are read. A line that completes the pending text ends a piece
that is read as if nothing followed; a line that does not leaves the text
incomplete, and it stays pending.

`chunks_of_read` is the result: of a text that can be read, every chunk can
be read, and the data of the chunks, one after the other, are those of the
text. It goes by induction over the lines (`InLines`), with any text
pending.
-/

set_option autoImplicit false

namespace MiniScheme

theorem endsLine_append {s t : String} (hs : EndsLine s) (ht : EndsLine t) :
    EndsLine (s ++ t) := by
  intro c hc
  rw [String.toList_append, List.getLast?_append] at hc
  cases hlast : t.toList.getLast? with
  | none =>
      rw [hlast] at hc
      exact hs c hc
  | some d =>
      rw [hlast] at hc
      exact ht c (by rw [hlast]; exact hc)

namespace Console

/-! ### Lines -/

/-- The lines make up the text, and only the last one may lack its newline. -/
inductive InLines : List String → String → Prop
  | nil : InLines [] ""
  | last (line : String) : InLines [line] line
  | cons {line : String} {rest : List String} {text : String} (ends : EndsLine line)
      (lines : InLines rest text) : InLines (line :: rest) (line ++ text)

theorem inLines_linesFrom (cs : List Char) :
    ∀ line, InLines (linesFrom line cs) (String.ofList (line.reverse ++ cs)) := by
  induction cs with
  | nil =>
      intro line
      rw [linesFrom, List.append_nil]
      cases line with
      | nil => exact .nil
      | cons c line => exact .last _
  | cons c cs ih =>
      intro line
      rw [linesFrom]
      split
      case isTrue hc =>
        subst hc
        have htext : String.ofList (line.reverse ++ '\n' :: cs)
            = Scan.textOf ('\n' :: line) ++ String.ofList cs := by
          simp [Scan.textOf, ← String.toList_inj]
        rw [htext]
        refine .cons (fun c hc => ?_) (ih [])
        simpa [Scan.textOf, eq_comm] using hc
      case isFalse hc =>
        have htext : line.reverse ++ c :: cs = (c :: line).reverse ++ cs := by simp
        rw [htext]
        exact ih (c :: line)

theorem inLines_lines (input : String) : InLines (lines input) input := by
  have h := inLines_linesFrom input.toList []
  rwa [List.reverse_nil, List.nil_append, String.ofList_toList] at h

/-! ### Chunks -/

/-- The chunks among the steps, in their order. -/
def chunksOf : List Step → List String
  | [] => []
  | .chunk source :: rest => source :: chunksOf rest
  | _ :: rest => chunksOf rest

/-- The steps get by without a fault of reading, and their chunks hold these
data. -/
structure Delivers (depth : Nat) (steps : List Step) (data : List Datum) : Prop where
  shallow : .tooDeep ∉ steps
  readable : ∀ chunk ∈ chunksOf steps, (read depth chunk).2 = none
  data_eq : ((chunksOf steps).flatMap fun chunk => (read depth chunk).1) = data

namespace Delivers

variable {depth : Nat} {steps : List Step} {data : List Datum}

theorem prompts (h : Delivers depth steps data) (interactive : Bool) (pending : String) :
    Delivers depth (promptStep interactive pending ++ steps) data := by
  cases interactive with
  | false => exact h
  | true => exact ⟨by simpa [promptStep] using h.shallow, h.readable, h.data_eq⟩

theorem chunk (h : Delivers depth steps data) {source : String} {before : List Datum}
    (hread : read depth source = (before, none)) :
    Delivers depth (.chunk source :: steps) (before ++ data) := by
  refine ⟨by simpa using h.shallow, ?_, ?_⟩
  · intro chunk hchunk
    rcases List.mem_cons.mp hchunk with rfl | hchunk
    · rw [hread]
    · exact h.readable chunk hchunk
  · rw [chunksOf, List.flatMap_cons, h.data_eq, hread]

theorem of_prompt {text : String} (h : Delivers depth (.prompt text :: steps) data) :
    Delivers depth steps data :=
  ⟨by simpa using h.shallow, h.readable, h.data_eq⟩

theorem of_chunk {source : String} (h : Delivers depth (.chunk source :: steps) data) :
    ∃ before behind, read depth source = (before, none) ∧ Delivers depth steps behind ∧
      data = before ++ behind := by
  refine ⟨(read depth source).1, _, Prod.ext rfl (h.readable source (by simp [chunksOf])),
    ⟨by simpa using h.shallow, fun chunk hchunk => h.readable chunk ?_, rfl⟩, h.data_eq.symm⟩
  exact List.mem_cons_of_mem source hchunk

end Delivers

/-- A line that makes the pending text readable ends a chunk. -/
theorem accept_of_read {depth : Nat} {pending line : String}
    (h : (read depth (pending ++ line)).2 = none) :
    accept depth pending line = .chunk (pending ++ line) := by
  rw [accept, h]

/-- With nothing pending and no lines left there are no more chunks. -/
theorem delivers_nil (depth : Nat) (interactive : Bool) :
    Delivers depth (stepsFrom depth interactive "" []) [] := by
  have hsteps : stepsFrom depth interactive "" [] = promptStep interactive "" ++ [] := rfl
  rw [hsteps]
  exact Delivers.prompts ⟨by simp, by simp [chunksOf], rfl⟩ _ _

/-- The lines deliver what the pending text holds together with them. -/
theorem delivers_stepsFrom {depth : Nat} {ls : List String} {text : String} (interactive : Bool)
    (hlines : InLines ls text) :
    ∀ pending data, EndsLine pending → ((read depth pending).2 = none → pending = "") →
      read depth (pending ++ text) = (data, none) →
      Delivers depth (stepsFrom depth interactive pending ls) data := by
  induction hlines with
  | nil =>
      intro pending data _ hpending hread
      rw [String.append_empty] at hread
      obtain rfl : pending = "" := hpending (by rw [hread])
      cases hread
      exact delivers_nil depth interactive
  | last line =>
      intro pending data _ _ hread
      rw [stepsFrom, accept_of_read (by rw [hread])]
      have hchunk := (delivers_nil depth interactive).chunk hread
      rw [List.append_nil] at hchunk
      exact hchunk.prompts _ _
  | @cons line rest text hends _ ih =>
      intro pending data hpending _ hread
      rw [stepsFrom]
      refine Delivers.prompts ?_ _ _
      have hsource := endsLine_append hpending hends
      rw [← String.append_assoc] at hread
      obtain ⟨before, ⟨hbefore, happend⟩ | ⟨e, hincomplete, hbefore, -⟩ |
        ⟨f, -, -, hstays⟩⟩ := read_append_cases depth hsource
      · -- The line completes a chunk; the others go on with nothing pending.
        rw [happend] at hread
        obtain ⟨rfl, hfault⟩ := Prod.mk.inj hread
        rw [accept_of_read (by rw [hbefore])]
        refine (ih "" _ (by decide) (fun _ => rfl) ?_).chunk hbefore
        rw [String.empty_append]
        exact Prod.ext rfl (Option.map_eq_none_iff.mp hfault)
      · have haccept : accept depth pending line = .pending (pending ++ line) := by
          rw [accept, hbefore]
          exact if_pos hincomplete
        rw [haccept]
        exact ih (pending ++ line) data hsource (fun h => by rw [hbefore] at h; cases h) hread
      · rw [hstays] at hread
        cases hread

/-- The chunks of a text that can be read hold its data. -/
theorem chunks_of_read {depth : Nat} (interactive : Bool) {input : String} {data : List Datum}
    (hread : read depth input = (data, none)) :
    Delivers depth (steps depth interactive input) data := by
  refine delivers_stepsFrom interactive (inLines_lines input) "" data (by decide)
    (fun _ => rfl) ?_
  rwa [String.empty_append]

end Console

end MiniScheme
