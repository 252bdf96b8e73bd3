import MiniScheme.Proofs.Chunks
import MiniScheme.Proofs.Scanning

/-!
# `MiniScheme.Proofs.ChunkCuts`: input is cut as early as it may be

A console puts lines together until they read without a fault, or with one
that no further line could mend. This file says where the cuts come, for every
input and with nothing assumed of it.

`CutsInto` speaks of lines alone: they fall into groups, and a group ends with
the first line behind which its text is not incomplete any more. There are two
ways to end otherwise. The lines may run out inside a group that is still
incomplete, or the text of a group may be nested too deeply to be read. Then
no more is cut, and all lines from that group on are left.

`chunks_cut_lines` says that the chunks of a console are the texts of such
groups. That none of the input gets lost at its end rests on
`isAllBlank_eq_false`: text that is incomplete is never blank.
-/

set_option autoImplicit false

namespace MiniScheme

/-- Reading the text ends in a fault that more text could mend. -/
def IsIncomplete (depth : Nat) (text : String) : Prop :=
  ∃ e, (read depth text).2 = some (.reading e) ∧ e.isIncomplete = true

/-- Blank text holds no data and has no fault. -/
theorem read_of_isAllBlank (depth : Nat) {text : String} (h : Text.isAllBlank text = true) :
    read depth text = ([], none) := by
  have hblank : ∀ c ∈ text.toList, Text.isBlank c = true := List.all_eq_true.mp h
  have hlex := lex_of_lexes (Lexes.blanks hblank .nil)
  rw [List.append_nil, String.ofList_toList] at hlex
  rw [read, Cursor.ofSource, hlex]
  rfl

/-- Incomplete text is never blank. -/
theorem isAllBlank_eq_false {depth : Nat} {text : String} (h : IsIncomplete depth text) :
    Text.isAllBlank text = false := by
  obtain ⟨e, he, -⟩ := h
  refine Bool.eq_false_iff.mpr fun hblank => ?_
  rw [read_of_isAllBlank depth hblank] at he
  cases he

namespace Console

/-! ### Groups of lines -/

/-- Every run of the lines from their start is incomplete. -/
def Pending (depth : Nat) (ls : List String) : Prop :=
  ∀ front, front <+: ls → front ≠ [] → IsIncomplete depth (String.join front)

/-- Every shorter run of the lines from their start is incomplete. -/
def Uncut (depth : Nat) (ls : List String) : Prop :=
  ∀ front, front <+: ls → front ≠ [] → front ≠ ls → IsIncomplete depth (String.join front)

/-- The lines are cut into these groups; the others behind them are left. -/
inductive CutsInto (depth : Nat) : List String → List (List String) → List String → Prop
  | nil : CutsInto depth [] [] []
  /-- The lines run out. -/
  | unfinished {group : List String} (nonempty : group ≠ []) (uncut : Uncut depth group)
      (incomplete : IsIncomplete depth (String.join group)) : CutsInto depth group [group] []
  /-- The text of the group is nested too deeply. -/
  | tooDeep {group rest : List String} (nonempty : group ≠ []) (uncut : Uncut depth group)
      (deep : (read depth (String.join group)).2 = some .tooDeep) :
      CutsInto depth (group ++ rest) [] (group ++ rest)
  | cut {group rest left : List String} {groups : List (List String)} (nonempty : group ≠ [])
      (uncut : Uncut depth group) (complete : ¬ IsIncomplete depth (String.join group))
      (behind : CutsInto depth rest groups left) :
      CutsInto depth (group ++ rest) (group :: groups) left

namespace CutsInto

variable {depth : Nat} {ls left : List String} {groups : List (List String)}

/-- No line is lost, none stands twice, and their order stays. -/
theorem flatten_append (h : CutsInto depth ls groups left) : groups.flatten ++ left = ls := by
  induction h with
  | nil => rfl
  | unfinished => simp
  | tooDeep => rfl
  | cut _ _ _ _ ih => simp [ih]

theorem uncut_of_mem (h : CutsInto depth ls groups left) :
    ∀ group ∈ groups, group ≠ [] ∧ Uncut depth group := by
  induction h with
  | nil | tooDeep => exact fun _ hg => absurd hg List.not_mem_nil
  | unfinished nonempty uncut =>
      intro g hg
      rw [List.mem_singleton.mp hg]
      exact ⟨nonempty, uncut⟩
  | cut nonempty uncut _ _ ih =>
      intro g hg
      rcases List.mem_cons.mp hg with rfl | hg
      · exact ⟨nonempty, uncut⟩
      · exact ih g hg

/-- Only the last group may be incomplete, and then it holds the last line. -/
theorem last_of_incomplete (h : CutsInto depth ls groups left) :
    ∀ front group back, groups = front ++ group :: back →
      IsIncomplete depth (String.join group) → back = [] ∧ left = [] := by
  induction h with
  | nil | tooDeep =>
      intro front group back hgroups
      exact absurd hgroups (by simp)
  | unfinished =>
      intro front group back hgroups _
      cases front with
      | nil => exact ⟨((List.cons.injEq _ _ _ _).mp hgroups).2.symm, rfl⟩
      | cons g front => simp at hgroups
  | cut _ _ complete _ ih =>
      intro front group back hgroups hincomplete
      cases front with
      | nil =>
          obtain ⟨rfl, -⟩ := (List.cons.injEq _ _ _ _).mp hgroups
          exact absurd hincomplete complete
      | cons g front =>
          exact ih front group back ((List.cons.injEq _ _ _ _).mp hgroups).2 hincomplete

/-- Lines are left only behind a text that is nested too deeply. -/
theorem deep_of_left (h : CutsInto depth ls groups left) :
    left = [] ∨ ∃ run, run <+: left ∧ run ≠ [] ∧
      (read depth (String.join run)).2 = some .tooDeep := by
  induction h with
  | nil | unfinished => exact .inl rfl
  | tooDeep nonempty _ deep => exact .inr ⟨_, List.prefix_append _ _, nonempty, deep⟩
  | cut _ _ _ _ ih => exact ih

end CutsInto

theorem Pending.nil (depth : Nat) : Pending depth [] :=
  fun _ hfront hnonempty => absurd (List.prefix_nil.mp hfront) hnonempty

/-- One line more than is pending makes a group without an earlier cut. -/
theorem Pending.uncut {depth : Nat} {pending : List String} (h : Pending depth pending)
    (line : String) : Uncut depth (pending ++ [line]) := by
  intro front hfront hnonempty hne
  exact h front ((List.prefix_concat_iff.mp hfront).resolve_left hne) hnonempty

theorem Pending.concat {depth : Nat} {pending : List String} (h : Pending depth pending)
    {line : String} (hline : IsIncomplete depth (String.join (pending ++ [line]))) :
    Pending depth (pending ++ [line]) := by
  intro front hfront hnonempty
  rcases List.prefix_concat_iff.mp hfront with rfl | hfront
  · exact hline
  · exact h front hfront hnonempty

/-! ### The steps of a console -/

/-- What one more line does is decided by reading the text with it. -/
theorem accept_cases (depth : Nat) (pending line : String) :
    (accept depth pending line = .pending (pending ++ line) ∧
      IsIncomplete depth (pending ++ line)) ∨
    (accept depth pending line = .tooDeep ∧
      (read depth (pending ++ line)).2 = some .tooDeep) ∨
    (accept depth pending line = .chunk (pending ++ line) ∧
      ¬ IsIncomplete depth (pending ++ line)) := by
  rw [accept]
  cases hread : (read depth (pending ++ line)).2 with
  | none =>
      refine .inr (.inr ⟨rfl, ?_⟩)
      rintro ⟨e, he, -⟩
      cases hread.symm.trans he
  | some f =>
      cases f with
      | tooDeep => exact .inr (.inl ⟨rfl, rfl⟩)
      | reading e =>
          cases he : e.isIncomplete with
          | true => exact .inl ⟨if_pos he, e, hread, he⟩
          | false =>
              refine .inr (.inr ⟨if_neg (by simp [he]), ?_⟩)
              rintro ⟨e', he', hincomplete⟩
              cases hread.symm.trans he'
              cases he.symm.trans hincomplete
      | _ =>
          refine .inr (.inr ⟨rfl, ?_⟩)
          rintro ⟨e, he, -⟩
          cases hread.symm.trans he

@[simp] theorem chunksOf_promptStep (interactive : Bool) (pending : String) (steps : List Step) :
    chunksOf (promptStep interactive pending ++ steps) = chunksOf steps := by
  cases interactive <;> rfl

@[simp] theorem tooDeep_mem_promptStep (interactive : Bool) (pending : String)
    (steps : List Step) :
    .tooDeep ∈ promptStep interactive pending ++ steps ↔ .tooDeep ∈ steps := by
  cases interactive <;> simp [promptStep]

/-- The chunks are the texts of the groups that the lines are cut into, those
that are pending with those that follow. Lines are left if and only if a text
was nested too deeply. -/
theorem exists_cutsInto (depth : Nat) (interactive : Bool) (ls : List String) :
    ∀ pending, Pending depth pending → ∃ groups left,
      CutsInto depth (pending ++ ls) groups left ∧
      chunksOf (stepsFrom depth interactive (String.join pending) ls) = groups.map String.join ∧
      (.tooDeep ∈ stepsFrom depth interactive (String.join pending) ls ↔ left ≠ []) := by
  induction ls with
  | nil =>
      intro pending hpending
      rw [List.append_nil, stepsFrom]
      by_cases hnil : pending = []
      · subst hnil
        refine ⟨[], [], .nil, ?_, ?_⟩
        · rw [chunksOf_promptStep]
          rfl
        · rw [tooDeep_mem_promptStep]
          simp [Text.isAllBlank]
      · -- What is pending at the end is incomplete, so it is not dropped.
        have hincomplete := hpending pending List.prefix_rfl hnil
        have hchunk := isAllBlank_eq_false hincomplete
        have huncut := fun front hfront hne (_ : front ≠ pending) => hpending front hfront hne
        refine ⟨[pending], [], .unfinished hnil huncut hincomplete, ?_, ?_⟩
        · rw [chunksOf_promptStep, hchunk]
          rfl
        · rw [tooDeep_mem_promptStep, hchunk]
          simp
  | cons line rest ih =>
      intro pending hpending
      have hsource : String.join pending ++ line = String.join (pending ++ [line]) := by simp
      have hlines : pending ++ line :: rest = (pending ++ [line]) ++ rest := by simp
      have hne : pending ++ [line] ≠ [] := by simp
      rw [stepsFrom, hlines]
      -- The line goes to what is pending, or is too deep with it, or ends the chunk.
      obtain ⟨haccept, hincomplete⟩ | ⟨haccept, hdeep⟩ | ⟨haccept, hcomplete⟩ :=
        accept_cases depth (String.join pending) line
      · rw [hsource] at hincomplete
        obtain ⟨groups, left, hcuts, hchunks, hleft⟩ := ih _ (hpending.concat hincomplete)
        refine ⟨groups, left, hcuts, ?_, ?_⟩
        · rw [haccept, chunksOf_promptStep, hsource, hchunks]
        · rw [haccept, tooDeep_mem_promptStep, hsource, hleft]
      · rw [hsource] at hdeep
        refine ⟨[], _, .tooDeep hne (hpending.uncut line) hdeep, ?_, ?_⟩
        · rw [haccept, chunksOf_promptStep]
          rfl
        · rw [haccept, tooDeep_mem_promptStep]
          simp
      · rw [hsource] at hcomplete
        obtain ⟨groups, left, hcuts, hchunks, hleft⟩ := ih [] (.nil depth)
        refine ⟨_, left, .cut hne (hpending.uncut line) hcomplete hcuts, ?_, ?_⟩
        · rw [haccept, chunksOf_promptStep, chunksOf, ← String.join_nil, hchunks, hsource]
          rfl
        · rw [haccept, tooDeep_mem_promptStep, ← hleft]
          simp

/-! ### Lines -/

/-- The lines make up the text. -/
theorem join_lines (input : String) : String.join (lines input) = input := by
  have key : ∀ {ls : List String} {text : String}, InLines ls text → String.join ls = text := by
    intro ls text h
    induction h with
    | nil => rfl
    | last => simp
    | cons _ _ ih => rw [String.join_cons, ih]
  exact key (inLines_lines input)

/-- The text of lines in groups is made up of the texts of the groups. -/
theorem join_flatten (groups : List (List String)) :
    String.join groups.flatten = String.join (groups.map String.join) := by
  induction groups with
  | nil => rfl
  | cons group groups ih =>
      rw [List.flatten_cons, String.join_append, ih, List.map_cons, String.join_cons]

end Console

open Console (CutsInto chunksOf)

/-- **Input is cut as early as it may be, and none of it is lost.** The lines of
any input fall into groups, and the chunks of a console are the texts of these
groups, in their order.

* Either no line is left behind the groups, and the chunks make up the input,
  or a run of lines from the first one that is left is nested too deeply to be
  read. In the second case the console ends there.
* Every group has a line, and every shorter run of its lines from the start is
  incomplete.
* The text of a group is not incomplete itself, unless the group is the last
  one and the input ends with it. -/
theorem chunks_cut_lines (depth : Nat) (interactive : Bool) (input : String) :
    ∃ (groups : List (List String)) (left : List String),
      groups.flatten ++ left = Console.lines input ∧
      chunksOf (Console.steps depth interactive input) = groups.map String.join ∧
      (left = [] ∧ .tooDeep ∉ Console.steps depth interactive input ∧
          String.join (chunksOf (Console.steps depth interactive input)) = input ∨
        .tooDeep ∈ Console.steps depth interactive input ∧
          ∃ run, run <+: left ∧ run ≠ [] ∧
            (read depth (String.join run)).2 = some .tooDeep) ∧
      (∀ group ∈ groups, group ≠ [] ∧ ∀ front, front <+: group → front ≠ [] → front ≠ group →
        IsIncomplete depth (String.join front)) ∧
      (∀ front group back, groups = front ++ group :: back →
        IsIncomplete depth (String.join group) → back = [] ∧ left = []) := by
  obtain ⟨groups, left, hcuts, hchunks, hleft⟩ := Console.exists_cutsInto depth interactive
    (Console.lines input) [] (Console.Pending.nil depth)
  -- With nothing pending, these are the steps of the console.
  replace hchunks : chunksOf (Console.steps depth interactive input) = groups.map String.join :=
    hchunks
  have hlines : groups.flatten ++ left = Console.lines input := hcuts.flatten_append
  refine ⟨groups, left, hlines, hchunks, ?_, hcuts.uncut_of_mem, hcuts.last_of_incomplete⟩
  rcases hcuts.deep_of_left with rfl | hrun
  · rw [List.append_nil] at hlines
    refine .inl ⟨rfl, fun hdeep => hleft.mp hdeep rfl, ?_⟩
    rw [hchunks, ← Console.join_flatten, hlines, Console.join_lines]
  · have hnonempty : left ≠ [] := by
      obtain ⟨run, hprefix, hne, -⟩ := hrun
      rintro rfl
      exact hne (List.prefix_nil.mp hprefix)
    exact .inr ⟨hleft.mpr hnonempty, hrun⟩

/-- An input whose last chunk is unfinished: a list over two lines, with a
comment and a blank line before it, and an open string. -/
example : chunksOf (Console.steps 4 false "; (\n\n(a\n b) c\n'\"d\n") =
    ["; (\n", "\n", "(a\n b) c\n", "'\"d\n"] := by
  decide +kernel

end MiniScheme
