import MiniScheme.Proofs.StructuralEquality
import MiniScheme.Proofs.WrittenTokens

/-!
# `MiniScheme.Proofs.RoundTrip`: printing and then reading

The text of a readable value reads back as one value, which is equal to
it, and a row of such texts with blanks between them reads back as the row
of the values: `read_write`.

The value may share parts, which are then printed at every place, so what
is read back is a tree and the two are equal by structure only. The
argument goes through the datum that the value unfolds to:
`write_eq_written` says what is printed, `lexes_written` and
`nextFrom_tokens` how it is read, and `equal_of_unfolds` why the two are
equal.
-/

set_option autoImplicit false

namespace MiniScheme

open Datum (Readable)

/-- The value is a finite tree of readable data, nested no deeper than the
limit. -/
def Store.ReadsBack (s : Store) (depth : Nat) (v : Value) : Prop :=
  ∃ d, s.Unfolds v d ∧ Readable d ∧ d.nesting .alone ≤ depth

/-- Texts in a row, each with the gap behind it. -/
def spaced : List (String × String) → String
  | [] => ""
  | (text, gap) :: rest => text ++ gap ++ spaced rest

/-- Gaps that keep texts in a row apart: all are blank, and none but the
last is empty. -/
structure KeepApart (gaps : List String) : Prop where
  blank : ∀ gap ∈ gaps, Text.isAllBlank gap = true
  nonempty : ∀ gap ∈ gaps.dropLast, gap ≠ ""

/-- The gaps behind the first one keep apart what they are between. -/
theorem KeepApart.tail {gap : String} {gaps : List String} (h : KeepApart (gap :: gaps)) :
    KeepApart gaps where
  blank := fun g hg => h.blank g (List.mem_cons_of_mem gap hg)
  nonempty := fun g hg => h.nonempty g (by
    cases gaps with
    | nil => simp at hg
    | cons next gaps => exact List.mem_cons_of_mem gap hg)

/-- An empty gap is the last one. -/
theorem KeepApart.eq_nil {gaps : List String} (h : KeepApart ("" :: gaps)) : gaps = [] := by
  cases gaps with
  | nil => rfl
  | cons next gaps => exact absurd rfl (h.nonempty "" (by simp))

/-- The external form of a datum, with the gap behind it. -/
def writtenRow (row : Datum × String) : String × String :=
  (String.ofList (row.1.written .alone), row.2)

/-- The characters of a blank text are blanks. -/
theorem isBlank_of_isAllBlank {gap : String} (h : Text.isAllBlank gap = true) :
    ∀ c ∈ gap.toList, Text.isBlank c = true := by
  simpa [Text.isAllBlank] using h

/-- External forms in a row lex to their tokens in a row, if their gaps
keep them apart. -/
theorem lexes_spaced {rows : List (Datum × String)} (hread : ∀ row ∈ rows, Readable row.1)
    (hgaps : KeepApart (rows.map Prod.snd)) :
    Lexes (spaced (rows.map writtenRow)).toList (rows.flatMap fun row => row.1.tokens .alone) := by
  induction rows with
  | nil => exact Lexes.nil
  | cons row rows ih =>
      obtain ⟨d, gap⟩ := row
      have hfirst : Lexes (d.written .alone) (d.tokens .alone) :=
        Datum.lexes_written (hread (d, gap) List.mem_cons_self) .alone
      have hspaces := isBlank_of_isAllBlank (hgaps.blank gap List.mem_cons_self)
      have hchars : (spaced (((d, gap) :: rows).map writtenRow)).toList
          = d.written .alone ++ (gap.toList ++ (spaced (rows.map writtenRow)).toList) := by
        simp [spaced, writtenRow]
      rw [hchars, List.flatMap_cons]
      cases hcs : gap.toList with
      | nil =>
          -- An empty gap is the last one, so nothing follows the datum.
          obtain rfl : gap = "" := by simpa using hcs
          obtain rfl : rows = [] := by simpa using hgaps.eq_nil
          simpa [spaced] using hfirst
      | cons c cs =>
          have hrest := ih (fun r hr => hread r (List.mem_cons_of_mem _ hr)) hgaps.tail
          rw [hcs] at hspaces
          have hc := hspaces c List.mem_cons_self
          refine hfirst.append (hrest.blanks hspaces) (by simp [isWordChar, hc]) ?_
          rintro rfl
          exact absurd hc (by decide)

/-- The tokens of readable data in a row are read as those data. -/
theorem restFrom_tokens {depth : Nat} {ds : List Datum}
    (h : ∀ d ∈ ds, Readable d ∧ d.nesting .alone ≤ depth) :
    ∀ before : List Datum,
      Cursor.restFrom depth none before depth [] (ds.flatMap fun d => d.tokens .alone)
        = (before.reverse ++ ds, none, ⟨[], none⟩) := by
  induction ds with
  | nil => intro before; simp [Cursor.restFrom, Cursor.atEnd]
  | cons d ds ih =>
      intro before
      obtain ⟨hread, hdepth⟩ := h d List.mem_cons_self
      -- The reader takes the tokens of the first datum and starts again behind it.
      rw [List.flatMap_cons, Cursor.restFrom_eq,
        (Datum.nextFrom_tokens hread).1 none depth [] _ trivial hdepth]
      show Cursor.restFrom depth none (d :: before) depth [] _ = _
      rw [ih fun e he => h e (List.mem_cons_of_mem d he)]
      simp

/-- Readable data in a row are read from their external forms in a row. -/
theorem read_spaced {depth : Nat} {lead : String} {rows : List (Datum × String)}
    (hread : ∀ row ∈ rows, Readable row.1 ∧ row.1.nesting .alone ≤ depth)
    (hlead : Text.isAllBlank lead = true) (hgaps : KeepApart (rows.map Prod.snd)) :
    read depth (lead ++ spaced (rows.map writtenRow)) = (rows.map Prod.fst, none) := by
  have hlex := (lexes_spaced (fun row hr => (hread row hr).1) hgaps).blanks
    (isBlank_of_isAllBlank hlead)
  have htokens : lex (lead ++ spaced (rows.map writtenRow))
      = ((rows.map Prod.fst).flatMap fun d => d.tokens .alone, none) := by
    rw [← String.ofList_toList (s := lead ++ spaced (rows.map writtenRow)), String.toList_append,
      lex_of_lexes hlex, List.flatMap_map]
  have hdata : ∀ d ∈ rows.map Prod.fst, Readable d ∧ d.nesting .alone ≤ depth := by
    intro d hd
    obtain ⟨row, hrow, rfl⟩ := List.mem_map.mp hd
    exact hread row hrow
  simp only [read, Cursor.ofSource, htokens, Cursor.rest, restFrom_tokens hdata]
  rfl

/-- The data that readable values in a row unfold to, each with the gap of
its value. -/
theorem exists_data {s : Store} {depth : Nat} {rows : List (Value × String)}
    (h : ∀ row ∈ rows, s.ReadsBack depth row.1) :
    ∃ data : List (Datum × String), List.Forall₂ (fun row datum => row.2 = datum.2 ∧
      s.Unfolds row.1 datum.1 ∧ Readable datum.1 ∧ datum.1.nesting .alone ≤ depth) rows data := by
  induction rows with
  | nil => exact ⟨[], .nil⟩
  | cons row rows ih =>
      obtain ⟨d, hd⟩ := h row List.mem_cons_self
      obtain ⟨data, hdata⟩ := ih fun r hr => h r (List.mem_cons_of_mem row hr)
      exact ⟨(d, row.2) :: data, .cons ⟨rfl, hd⟩ hdata⟩

/-- Two rows that match a third one match each other. -/
theorem forall₂_of_common {α β γ : Type} {R : α → γ → Prop} {S : β → γ → Prop} {as : List α}
    {bs : List β} {cs : List γ} (h : List.Forall₂ R as cs) :
    List.Forall₂ S bs cs → List.Forall₂ (fun a b => ∃ c, R a c ∧ S b c) as bs := by
  induction h generalizing bs with
  | nil => intro k; cases k; exact .nil
  | @cons a c as cs hac _ ih =>
      intro k
      cases k with
      | cons hbc k => exact .cons ⟨c, hac, hbc⟩ (ih k)

/-- Values in a row are printed, kept apart by blanks, read, and loaded
again: every one comes back, equal to what it was and in its place. -/
theorem exists_read_spaced {s : Store} {depth : Nat} {lead : String}
    {rows : List (Value × String)} (hrows : ∀ row ∈ rows, s.ReadsBack depth row.1)
    (hlead : Text.isAllBlank lead = true) (hgaps : KeepApart (rows.map Prod.snd)) :
    ∃ (texts : List (String × String)) (data : List Datum),
      List.Forall₂ (fun row text => s.write depth row.1 = .ok text.1 ∧ row.2 = text.2) rows texts ∧
      read depth (lead ++ spaced texts) = (data, none) ∧
      List.Forall₂ (fun row v => (Store.loadItems [] data s).2.equal depth v row.1 = .ok true)
        rows (Store.loadItems [] data s).1 := by
  obtain ⟨data, hdata⟩ := exists_data hrows
  have hread : ∀ row ∈ data, Readable row.1 ∧ row.1.nesting .alone ≤ depth := by
    have hflip := hdata.imp fun row datum h => And.intro h.2.2 h
    exact ((List.forall₂_and_left _ _).mp hflip.flip).1
  have hsame : rows.map Prod.snd = data.map Prod.snd := by
    rw [← List.forall₂_eq_eq_eq, List.forall₂_map_left_iff, List.forall₂_map_right_iff]
    exact hdata.imp fun row datum h => h.1
  refine ⟨data.map writtenRow, data.map Prod.fst, ?_, ?_, ?_⟩
  · refine List.forall₂_map_right_iff.mpr (hdata.imp fun row datum h => ?_)
    exact ⟨Store.write_eq_written h.2.2.1 h.2.1 h.2.2.2, h.1⟩
  · exact read_spaced hread hlead (hsame ▸ hgaps)
  · -- What was loaded unfolds to the same data as the values did before.
    have hloaded := Store.forall₂_unfolds_loadItems (data.map Prod.fst) s
    have hgrown := Store.extends_loadItems (data.map Prod.fst) s
    refine (forall₂_of_common hdata (List.forall₂_map_right_iff.mp hloaded)).imp ?_
    rintro row v ⟨datum, ⟨-, hrow, hd, hdepth⟩, hv⟩
    exact Store.equal_of_unfolds hd hv (hrow.mono hgrown) hdepth

/-- **Printing and then reading gives back an equal value**, and exactly
one. The same holds for values in a row whose texts are kept apart by
blanks: reading the text gives as many data, and loaded into the store
each one is equal to its value. -/
theorem read_write (s : Store) (depth : Nat) :
    (∀ v, s.ReadsBack depth v → ∃ text d, s.write depth v = .ok text ∧
      read depth text = ([d], none) ∧
      (s.load d).2.equal depth (s.load d).1 v = .ok true) ∧
    (∀ (lead : String) (rows : List (Value × String)),
      (∀ row ∈ rows, s.ReadsBack depth row.1) → Text.isAllBlank lead = true →
      KeepApart (rows.map Prod.snd) →
      ∃ (texts : List (String × String)) (data : List Datum),
        List.Forall₂ (fun row text => s.write depth row.1 = .ok text.1 ∧ row.2 = text.2)
          rows texts ∧
        read depth (lead ++ spaced texts) = (data, none) ∧
        List.Forall₂ (fun row v => (Store.loadItems [] data s).2.equal depth v row.1 = .ok true)
          rows (Store.loadItems [] data s).1) := by
  refine ⟨fun v hv => ?_, fun lead rows hrows hlead hgaps => exists_read_spaced hrows hlead hgaps⟩
  obtain ⟨d, hunfolds, hd, hdepth⟩ := hv
  refine ⟨_, d, Store.write_eq_written hd hunfolds hdepth, ?_, ?_⟩
  · -- A text by itself is a row of one, with nothing before or behind it.
    have hread : read depth ("" ++ spaced ([(d, "")].map writtenRow)) = ([d], none) :=
      read_spaced (by simpa using ⟨hd, hdepth⟩) rfl ⟨by simp [Text.isAllBlank], by simp⟩
    simpa [spaced, writtenRow] using hread
  · exact Store.equal_of_unfolds hd (Store.unfolds_load d s)
      (hunfolds.mono (Store.extends_load d s)) hdepth

/-- A store with a shared pair: the list of `(a . -7)` twice, and the pair
of a string with all that is escaped in it and a vector of that list. -/
def sharingStore : Store where
  cells := #[⟨.symbol "a", .number (.int (-7))⟩, ⟨.pair 0, .nil⟩, ⟨.pair 0, .pair 1⟩,
    ⟨.text 0 "\"\\\n", .vector 0⟩]
  vectors := #[[.pair 2, .boolean true]]
  strings := 1

/-- The list and the pair of that store are readable. -/
theorem sharingStore_readsBack :
    sharingStore.ReadsBack 5 (.pair 2) ∧ sharingStore.ReadsBack 5 (.pair 3) := by
  have hname : Datum.IsSymbolName "a" :=
    ⟨by decide, List.all_eq_true.mp (by decide), by decide, by decide, by decide⟩
  have hshort : (-7 : Int).natAbs < tooManyDigits := by decide +kernel
  have hshared : sharingStore.Unfolds (.pair 0) (.pair (.symbol "a") (.number (.int (-7)))) :=
    .pair rfl (.symbol "a") (.number _)
  have hread : Readable (.pair (.symbol "a") (.number (.int (-7)))) :=
    .pair (.symbol hname) (.int hshort)
  have hlist : sharingStore.Unfolds (.pair 2) _ := .pair rfl hshared (.pair rfl hshared .nil)
  have hlistRead := Readable.pair hread (.pair hread .nil)
  have hitems : List.Forall₂ sharingStore.Unfolds [.pair 2, .boolean true] [_, _] :=
    .cons hlist (.cons (.boolean true) .nil)
  obtain ⟨hlen, heach⟩ := Store.Unfolds.forall₂_iff.mp hitems
  have hvector : sharingStore.Unfolds (.vector 0) _ := .vector rfl hlen heach
  refine ⟨⟨_, hlist, hlistRead, by decide⟩, ⟨_, .pair rfl (.text 0 _) hvector, ?_, by decide⟩⟩
  refine .pair (.text _) (.vector fun d hd => ?_)
  rcases List.mem_cons.mp hd with rfl | hd
  · exact hlistRead
  · rw [List.mem_singleton.mp hd]
    exact .boolean true

/-- The theorem at that store: its list by itself, and both its values in
a row. -/
theorem read_write_sharingStore :
    sharingStore.ReadsBack 5 (.pair 2) ∧ sharingStore.ReadsBack 5 (.pair 3) ∧
    (∃ text d, sharingStore.write 5 (.pair 2) = .ok text ∧ read 5 text = ([d], none) ∧
      (sharingStore.load d).2.equal 5 (sharingStore.load d).1 (.pair 2) = .ok true) ∧
    (∃ (texts : List (String × String)) (data : List Datum),
      List.Forall₂ (fun row text => sharingStore.write 5 row.1 = .ok text.1 ∧ row.2 = text.2)
        [(.pair 2, "\n "), (.pair 3, "")] texts ∧
      read 5 (" " ++ spaced texts) = (data, none) ∧
      List.Forall₂ (fun row v =>
          (Store.loadItems [] data sharingStore).2.equal 5 v row.1 = .ok true)
        [(.pair 2, "\n "), (.pair 3, "")] (Store.loadItems [] data sharingStore).1) := by
  have hall : ∀ row ∈ [(Value.pair 2, "\n "), (.pair 3, "")],
      sharingStore.ReadsBack 5 row.1 := by
    simpa using sharingStore_readsBack
  exact ⟨sharingStore_readsBack.1, sharingStore_readsBack.2,
    (read_write sharingStore 5).1 _ sharingStore_readsBack.1,
    (read_write sharingStore 5).2 " " _ hall (by decide) ⟨by decide, by decide⟩⟩

/-- What the list is printed as. -/
example : sharingStore.write 5 (.pair 2) = .ok "((a . -7) (a . -7))" := by
  decide +kernel

end MiniScheme
