import MiniScheme.Proofs.Acceptance
import MiniScheme.Proofs.FreshTrees
import MiniScheme.Proofs.LexicalGrammar
import MiniScheme.Proofs.RoundTrip

/-!
# `MiniScheme.Proofs.ReadData`: what a text can hold

The data of a text are of a kind that can be written again. That no symbol is
spelt like a number, a boolean or a dot is due to three places together: the
lexer makes words as long as they can be and takes booleans out
(`Token.IsLexed`), the reader never takes a dot for a datum (`Phrase.word`),
and a word is a symbol only if it is no numeral (`Datum.ofWord`). Each datum
that is read, also before a fault, is derived by a phrase of lexed tokens
(`exists_phrase_of_mem_read`), and the rest is an induction over that phrase
(`textual_datum`, `nesting_datum_le`).

`read_makes_trees` puts this together with where loaded data lie
(`Store.Planted`) and with the way from a value to its text and back
(`exists_read_spaced`).
-/

set_option autoImplicit false

namespace MiniScheme

open Phrase (tokensAll dataAll nestingAll)

/-! ### Data that a text can hold -/

namespace Datum

/-- Readable data, and reals among them that are no NaN. -/
inductive Textual : Datum → Prop
  | int {n : Int} (short : n.natAbs < tooManyDigits) : Textual (.number (.int n))
  | real {x : Binary64} (value : ¬ x.IsNan) : Textual (.number (.real x))
  | text (t : String) : Textual (.text t)
  | symbol {name : String} (h : IsSymbolName name) : Textual (.symbol name)
  | boolean (b : Bool) : Textual (.boolean b)
  | nil : Textual .nil
  | pair {car cdr : Datum} (first : Textual car) (rest : Textual cdr) : Textual (.pair car cdr)
  | vector {items : List Datum} (each : ∀ d ∈ items, Textual d) : Textual (.vector items)

theorem Textual.foldr_pair (items : List Datum) {tail : Datum} (hitems : ∀ d ∈ items, Textual d)
    (htail : Textual tail) : Textual (items.foldr .pair tail) := by
  induction items with
  | nil => exact htail
  | cons d items ih =>
      exact .pair (hitems d List.mem_cons_self) (ih fun e he => hitems e (List.mem_cons_of_mem d he))

theorem isSymbolName_quote : IsSymbolName "quote" :=
  ⟨by decide, List.all_eq_true.mp (by decide), by decide, by decide, by decide⟩

/-- Behind an element no datum needs more levels than by itself. -/
theorem nesting_behind_le (d : Datum) : d.nesting .behind ≤ d.nesting .alone := by
  cases d <;> simp [nesting]

theorem nestingItems_le {items : List Datum} {n : Nat} (h : ∀ d ∈ items, d.nesting .alone ≤ n) :
    nestingItems items ≤ n := by
  induction items with
  | nil => exact Nat.zero_le n
  | cons d items ih =>
      exact Nat.max_le.mpr
        ⟨h d List.mem_cons_self, ih fun e he => h e (List.mem_cons_of_mem d he)⟩

/-- A list behind an element needs the levels of its elements and of what it
ends in. -/
theorem nesting_behind_foldr_le (items : List Datum) (tail : Datum) {n : Nat}
    (hitems : ∀ d ∈ items, d.nesting .alone ≤ n) (htail : tail.nesting .behind ≤ n) :
    (items.foldr .pair tail).nesting .behind ≤ n := by
  induction items with
  | nil => exact htail
  | cons d items ih =>
      exact Nat.max_le.mpr
        ⟨hitems d List.mem_cons_self, ih fun e he => hitems e (List.mem_cons_of_mem d he)⟩

end Datum

open Datum (Textual Readable)

/-! ### Tokens of a text -/

/-- A symbol token is a whole word and none of the booleans. -/
def Token.IsLexed (t : Token) : Prop :=
  t.kind = .symbol → t.text ≠ "" ∧ (∀ c ∈ t.text.toList, isWordChar c = true) ∧
    t.text ∉ booleanWords

theorem IsToken.isLexed {t : Token} {rest : List Char} (h : IsToken t rest) : t.IsLexed := by
  cases h with
  | symbol nonempty chars _ notBoolean => exact fun _ => ⟨nonempty, chars, notBoolean⟩
  | _ => exact nofun

theorem Decomposes.isLexed {cs : List Char} {d : Decomposition} (h : Decomposes cs d) :
    ∀ t ∈ d.tokens, t.IsLexed := by
  induction h with
  | done => simp [Decomposition.tokens]
  | unclosed => simp [Decomposition.tokens]
  | token _ valid _ ih =>
      intro t ht
      rcases List.mem_cons.mp ht with rfl | ht
      · exact valid.isLexed
      · exact ih t ht

theorem isLexed_of_mem_lex {source : String} : ∀ t ∈ (lex source).1, t.IsLexed := by
  obtain ⟨d, hd⟩ := exists_decomposes _ source.toList (Nat.le_refl _)
  have hlex : (lex source).1 = d.tokens := by
    have hfrom := congrArg Prod.fst (lexFrom_of_decomposes hd 0 [])
    rwa [List.reverse_nil, List.nil_append] at hfrom
  rw [hlex]
  exact hd.isLexed

/-! ### Phrases of lexed tokens -/

/-- A word that is lexed and is no dot is a number or the name of a symbol. -/
theorem textual_ofWord {word : String} (hlexed : Token.IsLexed ⟨.symbol, word⟩)
    (hdot : word ≠ ".") : Textual (.ofWord word) := by
  obtain ⟨hnonempty, hchars, hboolean⟩ := hlexed rfl
  unfold Datum.ofWord
  cases hword : Number.ofWord? word with
  | none => exact .symbol ⟨hnonempty, hchars, hdot, hboolean, hword⟩
  | some n =>
      cases n with
      | int k => exact .int (natAbs_lt_of_ofWord? hword)
      | real x => exact .real (not_isNan_of_ofWord? hword)

namespace Phrase

/-- The tokens of phrases in a row are those of each of them. -/
theorem mem_tokensAll {ps : List Phrase} {t : Token} :
    t ∈ tokensAll ps ↔ ∃ p ∈ ps, t ∈ p.tokens := by
  induction ps with
  | nil => simp [tokensAll]
  | cons p ps ih => simp [tokensAll, ih]

theorem mem_dataAll {ps : List Phrase} {d : Datum} : d ∈ dataAll ps ↔ ∃ p ∈ ps, p.datum = d := by
  induction ps with
  | nil => simp [dataAll]
  | cons p ps ih => simp [dataAll, ih, eq_comm]

theorem nesting_le_nestingAll {ps : List Phrase} {p : Phrase} (h : p ∈ ps) :
    p.nesting ≤ nestingAll ps := by
  induction ps with
  | nil => exact absurd h List.not_mem_nil
  | cons q ps ih =>
      rcases List.mem_cons.mp h with rfl | h
      · exact Nat.le_max_left _ _
      · exact Nat.le_trans (ih h) (Nat.le_max_right _ _)

/-- A phrase of lexed tokens stands for a datum that a text can hold. -/
theorem textual_datum (p : Phrase) : (∀ t ∈ p.tokens, t.IsLexed) → Textual p.datum := by
  have hall {ps : List Phrase} (h : ∀ p ∈ ps, (∀ t ∈ p.tokens, t.IsLexed) → Textual p.datum)
      (hlexed : ∀ t ∈ tokensAll ps, t.IsLexed) : ∀ d ∈ dataAll ps, Textual d := by
    intro d hd
    obtain ⟨p, hp, rfl⟩ := mem_dataAll.mp hd
    exact h p hp fun t ht => hlexed t (mem_tokensAll.mpr ⟨p, hp, ht⟩)
  induction p using treeInduction with
  | word text notDot => exact fun hlexed => textual_ofWord (hlexed _ List.mem_cons_self) notDot
  | boolean text => exact fun _ => .boolean _
  | string text => exact fun _ => .text _
  | quotation mark p ih =>
      intro hlexed
      have hdatum := ih fun t ht => hlexed t (List.mem_cons_of_mem _ ht)
      exact .pair (.symbol Datum.isSymbolName_quote) (.pair hdatum .nil)
  | list opening items closing ih =>
      intro hlexed
      exact .foldr_pair _ (hall ih fun t ht => hlexed t (by simp [tokens, ht])) .nil
  | dotted opening first items tail closing ih ihtail =>
      intro hlexed
      rw [tokens_dotted] at hlexed
      have htail := ihtail fun t ht => hlexed t (by simp [ht])
      exact Textual.foldr_pair (dataAll (first :: items))
        (hall ih fun t ht => hlexed t (by simp [ht])) htail
  | vector opening items closing ih =>
      intro hlexed
      exact .vector (hall ih fun t ht => hlexed t (by simp [tokens, ht]))

/-- A datum needs at most one level more than the phrase that it was read
from has open forms: atoms need one, too. -/
theorem nesting_datum_le (p : Phrase) : p.datum.nesting .alone ≤ p.nesting + 1 := by
  have hall {ps : List Phrase} (h : ∀ p ∈ ps, p.datum.nesting .alone ≤ p.nesting + 1) :
      ∀ d ∈ dataAll ps, d.nesting .alone ≤ nestingAll ps + 1 := by
    intro d hd
    obtain ⟨p, hp, rfl⟩ := mem_dataAll.mp hd
    exact Nat.le_trans (h p hp) (Nat.succ_le_succ (nesting_le_nestingAll hp))
  induction p using treeInduction with
  | word text notDot =>
      -- A word opens no form, and its datum is an atom, which takes one level.
      have hatom : (Datum.ofWord text).nesting .alone = 1 := by
        unfold Datum.ofWord
        cases Number.ofWord? text <;> rfl
      exact Nat.le_of_eq hatom
  | boolean | string => exact Nat.le_refl 1
  | quotation mark p ih =>
      show max 1 (max (p.datum.nesting .alone) 0) + 1 ≤ p.nesting + 1 + 1
      omega
  | list opening items closing ih =>
      have hbehind := Datum.nesting_behind_foldr_le _ .nil (hall ih) (Nat.zero_le _)
      exact Nat.le_trans (Datum.nesting_alone_le _) (Nat.succ_le_succ hbehind)
  | dotted opening first items tail closing ih ihtail =>
      have hnesting : (dotted opening first items tail closing).nesting
          = max (nestingAll (first :: items)) tail.nesting + 1 := rfl
      have hrow := Nat.le_max_left (nestingAll (first :: items)) tail.nesting
      have htail := Nat.le_max_right (nestingAll (first :: items)) tail.nesting
      have hbehind := Datum.nesting_behind_foldr_le (dataAll (first :: items)) tail.datum
        (fun d hd => Nat.le_trans (hall ih d hd) (Nat.succ_le_succ hrow))
        (Nat.le_trans (Datum.nesting_behind_le _) (Nat.le_trans ihtail (Nat.succ_le_succ htail)))
      rw [hnesting]
      exact Nat.le_trans (Datum.nesting_alone_le _) (Nat.succ_le_succ hbehind)
  | vector opening items closing ih =>
      show Datum.nestingItems (dataAll items) + 1 ≤ nestingAll items + 1 + 1
      exact Nat.succ_le_succ (Datum.nestingItems_le (hall ih))

end Phrase

/-! ### What is read -/

/-- Every datum that is read, whatever comes of the rest, was read before or
is derived by some of the tokens. -/
theorem exists_phrase_of_mem_restFrom {depth : Nat} (fault : Option ReadError)
    (us : List Token) :
    ∀ {room : Nat} {stack : List OpenForm} {ts : List Token} (before : List Datum),
      Opened depth room stack ts →
      ∀ d ∈ (Cursor.restFrom depth fault before room stack us).1, d ∈ before ∨
        ∃ p : Phrase, p.datum = d ∧ p.nesting ≤ depth ∧ ∀ t ∈ p.tokens, t ∈ ts ++ us := by
  induction us with
  | nil =>
      intro room stack ts before _ d hd
      rw [Cursor.restFrom] at hd
      split at hd <;> exact .inl (List.mem_reverse.mp hd)
  | cons t us ih =>
      intro room stack ts before hopened d hd
      have hderived := hopened.feed t
      rw [Cursor.restFrom] at hd
      cases hfeed : Datum.feed room stack t with
      | done e =>
          -- A phrase is complete, and the rest starts afresh.
          rw [hfeed] at hderived hd
          obtain ⟨p, rfl, hp, hnesting⟩ := hderived
          rcases ih _ .none d hd with hbefore | ⟨q, hq, hdepth, hmem⟩
          · rcases List.mem_cons.mp hbefore with rfl | hbefore
            · refine .inr ⟨p, rfl, hnesting, fun t' ht' => ?_⟩
              rw [hp] at ht'
              rcases List.mem_append.mp ht' with ht' | ht'
              · exact List.mem_append_left _ ht'
              · exact List.mem_append_right _ (List.mem_singleton.mp ht' ▸ List.mem_cons_self)
            · exact .inl hbefore
          · refine .inr ⟨q, hq, hdepth, fun t' ht' => ?_⟩
            exact List.mem_append_right _ (List.mem_cons_of_mem t (hmem t' ht'))
      | more room' stack' =>
          rw [hfeed] at hderived hd
          refine (ih before hderived d hd).imp_right ?_
          rintro ⟨p, hp, hdepth, hmem⟩
          refine ⟨p, hp, hdepth, fun t' ht' => ?_⟩
          have hmem' := hmem t' ht'
          rwa [List.append_assoc, List.singleton_append] at hmem'
      -- A fault ends the text, with the data before it.
      | reject f => rw [hfeed] at hd; exact .inl (List.mem_reverse.mp hd)
      | decline f => rw [hfeed] at hd; exact .inl (List.mem_reverse.mp hd)

theorem exists_phrase_of_mem_read {depth : Nat} {source : String} {d : Datum}
    (h : d ∈ (read depth source).1) :
    ∃ p : Phrase, p.datum = d ∧ p.nesting ≤ depth ∧ ∀ t ∈ p.tokens, t.IsLexed := by
  have hstart : Opened depth depth [] [] := .none
  obtain ⟨p, hp, hdepth, hmem⟩ := (exists_phrase_of_mem_restFrom (lex source).2 (lex source).1 []
    hstart d h).resolve_left List.not_mem_nil
  exact ⟨p, hp, hdepth, fun t ht => isLexed_of_mem_lex t (hmem t ht)⟩

/-- The data of a text are such data, and need at most one level more than it
took to read them. -/
theorem textual_of_mem_read {depth : Nat} {source : String} {d : Datum}
    (h : d ∈ (read depth source).1) : Textual d ∧ d.nesting .alone ≤ depth + 1 := by
  obtain ⟨p, rfl, hdepth, hlexed⟩ := exists_phrase_of_mem_read h
  exact ⟨p.textual_datum hlexed, Nat.le_trans p.nesting_datum_le (Nat.succ_le_succ hdepth)⟩

/-! ### The values of a text -/

/-- The values of a text, made in a store one after the other. -/
def readInto (depth : Nat) (source : String) (s : Store) : List Value × Store :=
  Store.loadItems [] (read depth source).1 s

/-- A value of a kind that a text can hold. Of a pair or a vector this says
nothing about what is in it. -/
inductive Value.IsTextual : Value → Prop
  | int {n : Int} (short : (Nat.toDigits 10 n.natAbs).length ≤ 4300) : IsTextual (.number (.int n))
  | real (x : Binary64) : IsTextual (.number (.real x))
  | text (tag : Nat) (t : String) : IsTextual (.text tag t)
  | symbol {name : String} (h : Datum.IsSymbolName name) : IsTextual (.symbol name)
  | boolean (b : Bool) : IsTextual (.boolean b)
  | nil : IsTextual .nil
  | pair (r : Ref) : IsTextual (.pair r)
  | vector (r : Ref) : IsTextual (.vector r)

namespace Store

variable {s : Store} {v w : Value} {d : Datum} {path : List Selector}

/-- What stands in a finite tree of such data is one, too. -/
theorem LeadsTo.exists_textual (h : s.LeadsTo v path w) :
    ∀ {d : Datum}, s.Unfolds v d → Textual d → ∃ e, s.Unfolds w e ∧ Textual e := by
  induction h with
  | here v => exact fun hv hd => ⟨_, hv, hd⟩
  | car cell _ ih =>
      intro d hv hd
      cases hv with
      | pair cell' first rest =>
          obtain rfl := Option.some.inj (cell.symm.trans cell')
          cases hd with
          | pair hfirst => exact ih first hfirst
  | cdr cell _ ih =>
      intro d hv hd
      cases hv with
      | pair cell' first rest =>
          obtain rfl := Option.some.inj (cell.symm.trans cell')
          cases hd with
          | pair _ hrest => exact ih rest hrest
  | item contents place _ ih =>
      intro d hv hd
      cases hv with
      | vector contents' same each =>
          obtain rfl := Option.some.inj (contents.symm.trans contents')
          cases hd with
          | vector heach =>
              obtain ⟨hi, rfl⟩ := List.getElem?_eq_some_iff.mp place
              exact ih (each _ hi (same ▸ hi)) (heach _ (List.get_mem _ _))

theorem Unfolds.isTextual (h : s.Unfolds v d) (hd : Textual d) : v.IsTextual := by
  cases h with
  | number =>
      cases hd with
      | int short => exact .int (length_toDigits_le_maxDigits short)
      | real => exact .real _
  | text tag t => exact .text tag t
  | symbol =>
      cases hd with
      | symbol h => exact .symbol h
  | boolean b => exact .boolean b
  | nil => exact .nil
  | pair => exact .pair _
  | vector => exact .vector _

/-- Without reals such data can be read back. -/
theorem Unfolds.readable (h : s.Unfolds v d) :
    Textual d → (∀ path w x, s.LeadsTo v path w → w ≠ .number (.real x)) → Readable d := by
  induction h with
  | number n =>
      intro hd hreal
      cases hd with
      | int short => exact .int short
      | @real x => exact absurd rfl (hreal [] _ x (.here _))
  | text tag t => exact fun _ _ => .text t
  | symbol name =>
      intro hd _
      cases hd with
      | symbol h => exact .symbol h
  | boolean b => exact fun _ _ => .boolean b
  | nil => exact fun _ _ => .nil
  | pair cell _ _ ihcar ihcdr =>
      intro hd hreal
      cases hd with
      | pair hfirst hrest =>
          exact .pair (ihcar hfirst fun path w x h => hreal _ w x (.car cell h))
            (ihcdr hrest fun path w x h => hreal _ w x (.cdr cell h))
  | vector contents same _ ih =>
      intro hd hreal
      cases hd with
      | vector heach =>
          refine .vector fun e he => ?_
          obtain ⟨i, hi, rfl⟩ := List.getElem_of_mem he
          refine ih i (same.symm ▸ hi) hi (heach _ he) fun path w x h => ?_
          exact hreal _ w x (.item contents (List.getElem?_eq_getElem (same.symm ▸ hi)) h)

/-- One value is printed, read and loaded again. -/
theorem ReadsBack.exists_read {limit : Nat} (h : s.ReadsBack limit v) :
    ∃ text d, s.write limit v = .ok text ∧ read limit text = ([d], none) ∧
      (s.load d).2.equal limit (s.load d).1 v = .ok true := by
  -- A text by itself is a row of one, with nothing before or behind it.
  have hrow : ∀ row ∈ [(v, "")], s.ReadsBack limit row.1 := by simpa using h
  have hlead : Text.isAllBlank "" = true := rfl
  obtain ⟨texts, data, htexts, hread, hequal⟩ :=
    exists_read_spaced hrow hlead ⟨by simp [Text.isAllBlank], by simp⟩
  cases htexts with
  | @cons _ text _ _ hwrite hnone =>
      cases hnone
      obtain ⟨text, gap⟩ := text
      obtain ⟨hwrite, rfl⟩ := hwrite
      cases data with
      | nil => cases hequal
      | cons d data =>
          rw [loadItems_cons] at hequal
          cases hequal with
          | cons hequal hnone =>
              cases data with
              | nil => exact ⟨text, d, hwrite, by simpa [spaced] using hread, hequal⟩
              | cons e data =>
                  rw [loadItems_cons] at hnone
                  cases hnone

end Store

/-- The values of a text unfold to data that a text can hold. -/
theorem exists_textual_of_mem_readInto {depth : Nat} {source : String} {s : Store} {v : Value}
    (h : v ∈ (readInto depth source s).1) :
    ∃ d, (readInto depth source s).2.Unfolds v d ∧ Textual d ∧ d.nesting .alone ≤ depth + 1 := by
  have hunfolds := Store.forall₂_unfolds_loadItems (read depth source).1 s
  obtain ⟨hlen, heach⟩ := Store.Unfolds.forall₂_iff.mp hunfolds
  obtain ⟨i, rfl⟩ := List.get_of_mem h
  exact ⟨_, heach i i.2 (hlen ▸ i.2), textual_of_mem_read (List.get_mem _ _)⟩

/-- **The values of a text are new trees that can be printed back.** The values
are those read up to the end of the text or its first fault. Every pair and
every vector in one of them was not there before, stands at one place of that
value and in no other value of the text, and leads back to itself nowhere. All
that stands in a value is of a kind that a text can hold: integers have at most
4300 digits, and symbols are named by words that are nothing else. If no real
stands in a value, then it has a text, which reads back as one datum that is
equal to it; for this the limit on nesting has to be higher than the one for
reading, since atoms count for the text. -/
theorem read_makes_trees (depth : Nat) (source : String) (s : Store) :
    (∀ (i j : Nat) v v' path path' w o, (readInto depth source s).1[i]? = some v →
      (readInto depth source s).1[j]? = some v' →
      (readInto depth source s).2.LeadsTo v path w →
      (readInto depth source s).2.LeadsTo v' path' w → w.object? = some o →
      ¬s.Has o ∧ (readInto depth source s).2.Has o ∧ i = j ∧ path = path') ∧
    (∀ v ∈ (readInto depth source s).1, ∀ path w loop o,
      (readInto depth source s).2.LeadsTo v path w → w.object? = some o →
      (readInto depth source s).2.LeadsTo w loop w → loop = []) ∧
    (∀ v ∈ (readInto depth source s).1, ∀ path w,
      (readInto depth source s).2.LeadsTo v path w → w.IsTextual) ∧
    ∀ v ∈ (readInto depth source s).1,
      (∀ path w x, (readInto depth source s).2.LeadsTo v path w → w ≠ .number (.real x)) →
      ∀ limit > depth, ∃ text d, (readInto depth source s).2.write limit v = .ok text ∧
        read limit text = ([d], none) ∧
        ((readInto depth source s).2.load d).2.equal limit
          ((readInto depth source s).2.load d).1 v = .ok true := by
  have hplanted := Store.planted_loadItems (read depth source).1 s
  refine ⟨fun i j v v' path path' w o hi hj h h' ho => ?_, fun v hv path w loop o h ho hloop => ?_,
    fun v hv path w h => ?_, fun v hv hreal limit hlimit => ?_⟩
  · obtain ⟨hold, hnew⟩ := hplanted.new hi h ho
    exact ⟨hold, hnew, hplanted.once hi hj h h' ho⟩
  · obtain ⟨i, hi⟩ := List.mem_iff_getElem?.mp hv
    exact hplanted.acyclic hi h ho hloop
  · obtain ⟨d, hunfolds, htextual, -⟩ := exists_textual_of_mem_readInto hv
    obtain ⟨e, he, hetextual⟩ := h.exists_textual hunfolds htextual
    exact he.isTextual hetextual
  · obtain ⟨d, hunfolds, htextual, hnesting⟩ := exists_textual_of_mem_readInto hv
    exact Store.ReadsBack.exists_read
      ⟨d, hunfolds, hunfolds.readable htextual hreal, Nat.le_trans hnesting hlimit⟩

end MiniScheme
