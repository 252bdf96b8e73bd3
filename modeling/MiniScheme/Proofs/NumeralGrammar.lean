import Mathlib.Data.List.Forall2
import Mathlib.Data.Nat.Digits.Defs
import MiniScheme.Proofs.WrittenTokens

/-!
# `MiniScheme.Proofs.NumeralGrammar`: which words are numbers, by a grammar

The grammar of numerals, apart from any reader: a sign (`IsSign`), digits with
a point among, before or behind them (`IsMantissa`), and an exponent
(`IsExponent`). Only the digits between point and exponent must not be missing
altogether. `IsNumeral` puts the three together.

`parse?_eq_some_iff` says that `Numeral.parse?` finds the parts of exactly the
words that the grammar derives. The one thing that makes this more than reading
the grammar from left to right is that a row of digits is taken as far as it
goes: what follows a row of digits in a numeral is no digit, so the longest row
is the right one (`digits_append`).

`ofWord_classifies` is what follows for data: numerals are numbers, those of
at most 4300 digits and nothing else are integers, and all other words are
symbols.
-/

set_option autoImplicit false

namespace MiniScheme

namespace Numeral

/-! ### The grammar -/

/-- The characters are decimal digits of these values. -/
def IsDigits : List Char → List Nat → Prop :=
  List.Forall₂ fun c d => Text.digitValue? c = some d

/-- An optional sign, and whether it is a minus. -/
inductive IsSign : List Char → (negative : Bool) → Prop
  | absent : IsSign [] false
  | plus : IsSign ['+'] false
  | minus : IsSign ['-'] true

/-- Digits with an optional point behind at least one of them, or a point with
digits behind it. -/
inductive IsMantissa : List Char → (whole : List Nat) → (fraction : Option (List Nat)) → Prop
  | whole {cs : List Char} {ds : List Nat} (digits : IsDigits cs ds) (nonempty : cs ≠ []) :
      IsMantissa cs ds none
  | pointed {cs fs : List Char} {ds es : List Nat} (digits : IsDigits cs ds) (nonempty : cs ≠ [])
      (behind : IsDigits fs es) : IsMantissa (cs ++ '.' :: fs) ds (some es)
  | fraction {fs : List Char} {es : List Nat} (behind : IsDigits fs es) (nonempty : fs ≠ []) :
      IsMantissa ('.' :: fs) [] (some es)

/-- An optional exponent: its mark, a sign and digits. -/
inductive IsExponent : List Char → Option (Bool × List Nat) → Prop
  | absent : IsExponent [] none
  | present {mark : Char} {sign cs : List Char} {negative : Bool} {ds : List Nat}
      (isMark : mark = 'e' ∨ mark = 'E') (isSign : IsSign sign negative) (digits : IsDigits cs ds)
      (nonempty : cs ≠ []) : IsExponent (mark :: (sign ++ cs)) (some (negative, ds))

/-- A numeral with its parts. -/
inductive IsNumeral : List Char → Numeral → Prop
  | intro {sign mantissa tail : List Char} {negative : Bool} {whole : List Nat}
      {fraction : Option (List Nat)} {exponent : Option (Bool × List Nat)}
      (isSign : IsSign sign negative) (isMantissa : IsMantissa mantissa whole fraction)
      (isExponent : IsExponent tail exponent) :
      IsNumeral (sign ++ (mantissa ++ tail)) ⟨negative, whole, fraction, exponent⟩

/-! ### Rows of digits -/

/-- A row of digits that stands before this text is not longer. -/
def StopsDigits (rest : List Char) : Prop := ∀ c ∈ rest.head?, Text.digitValue? c = none

theorem stopsDigits_nil : StopsDigits [] := by simp [StopsDigits]

theorem stopsDigits_point (rest : List Char) : StopsDigits ('.' :: rest) := by
  simp only [StopsDigits, List.head?_cons, Option.mem_some_iff]
  rintro c rfl
  decide

/-- What may stand behind the digits of a numeral is no digit. -/
theorem IsExponent.stopsDigits {cs : List Char} {e : Option (Bool × List Nat)}
    (h : IsExponent cs e) : StopsDigits cs := by
  cases h with
  | absent => exact stopsDigits_nil
  | present isMark =>
      simp only [StopsDigits, List.head?_cons, Option.mem_some_iff]
      rintro c rfl
      rcases isMark with rfl | rfl <;> decide

theorem IsDigits.isSome {cs : List Char} {ds : List Nat} (h : IsDigits cs ds) :
    ∀ c ∈ cs, (Text.digitValue? c).isSome = true := by
  induction h with
  | nil => simp
  | cons hd _ ih => simpa [hd] using ih

theorem IsDigits.filterMap {cs : List Char} {ds : List Nat} (h : IsDigits cs ds) :
    cs.filterMap Text.digitValue? = ds := by
  induction h with
  | nil => rfl
  | cons hd _ ih => simp [hd, ih]

theorem IsDigits.eq_nil_iff {cs : List Char} {ds : List Nat} (h : IsDigits cs ds) :
    ds = [] ↔ cs = [] := by
  cases h <;> simp

/-- A row of digits is taken whole, and nothing of what follows. -/
theorem digits_append {cs rest : List Char} {ds : List Nat} (h : IsDigits cs ds)
    (hstops : StopsDigits rest) : digits (cs ++ rest) = (ds, rest) := by
  have htake : (cs ++ rest).takeWhile (fun c => (Text.digitValue? c).isSome) = cs := by
    rw [List.takeWhile_append_of_pos h.isSome]
    cases rest with
    | nil => simp
    | cons c rest => simp [hstops c rfl]
  have hdrop : (cs ++ rest).dropWhile (fun c => (Text.digitValue? c).isSome) = rest := by
    rw [List.dropWhile_append_of_pos h.isSome]
    cases rest with
    | nil => rfl
    | cons c rest => simp [hstops c rfl]
  simp [digits, List.span_eq_takeWhile_dropWhile, htake, hdrop, h.filterMap]

/-- What is taken is a row of digits, up to something that is no digit. -/
theorem exists_digits (cs : List Char) :
    ∃ row rest ds, cs = row ++ rest ∧ IsDigits row ds ∧ StopsDigits rest := by
  induction cs with
  | nil => exact ⟨[], [], [], rfl, .nil, stopsDigits_nil⟩
  | cons c cs ih =>
      cases hc : Text.digitValue? c with
      | none =>
          refine ⟨[], c :: cs, [], rfl, .nil, ?_⟩
          simpa [StopsDigits] using hc
      | some d =>
          obtain ⟨row, rest, ds, rfl, hrow, hstops⟩ := ih
          exact ⟨c :: row, rest, d :: ds, rfl, .cons hc hrow, hstops⟩

/-! ### Signs -/

/-- A sign is taken if there is one. -/
theorem sign_append {cs rest : List Char} {negative : Bool} (h : IsSign cs negative)
    (hrest : rest.head? ≠ some '+' ∧ rest.head? ≠ some '-') :
    sign (cs ++ rest) = (negative, rest) := by
  cases h with
  | plus | minus => rfl
  | absent =>
      rw [List.nil_append]
      unfold sign
      split
      · exact absurd rfl hrest.2
      · exact absurd rfl hrest.1
      · rfl

theorem exists_sign (cs : List Char) :
    ∃ front rest negative, cs = front ++ rest ∧ IsSign front negative ∧
      sign cs = (negative, rest) := by
  unfold sign
  split
  · exact ⟨['-'], _, true, rfl, .minus, rfl⟩
  · exact ⟨['+'], _, false, rfl, .plus, rfl⟩
  · exact ⟨[], _, false, rfl, .absent, rfl⟩

/-- Digits have no sign in front of them. -/
theorem IsDigits.head?_ne {cs : List Char} {ds : List Nat} (h : IsDigits cs ds) (hne : cs ≠ [])
    (rest : List Char) :
    (cs ++ rest).head? ≠ some '+' ∧ (cs ++ rest).head? ≠ some '-' := by
  cases h with
  | nil => exact absurd rfl hne
  | cons hd _ =>
      constructor <;> rintro ⟨⟩ <;> cases hd

theorem IsMantissa.head?_ne {cs : List Char} {ds : List Nat} {fs : Option (List Nat)}
    (h : IsMantissa cs ds fs) (rest : List Char) :
    (cs ++ rest).head? ≠ some '+' ∧ (cs ++ rest).head? ≠ some '-' := by
  cases h with
  | whole digits nonempty => exact digits.head?_ne nonempty rest
  | pointed digits nonempty =>
      rw [List.append_assoc]
      exact digits.head?_ne nonempty _
  | fraction => simp

/-! ### The reader follows the grammar -/

/-- An exponent is read as such, and nothing else is. -/
theorem parseExponent?_eq_some_iff {cs : List Char} {e : Option (Bool × List Nat)} :
    parseExponent? cs = some e ↔ IsExponent cs e := by
  constructor
  · intro h
    unfold parseExponent? at h
    split at h
    · cases h
      exact .absent
    · rename_i mark cs
      split at h
      · rename_i hmark
        obtain ⟨front, rest, negative, rfl, hfront, hsign⟩ := exists_sign cs
        obtain ⟨row, last, ds, rfl, hrow, hstops⟩ := exists_digits rest
        simp only [hsign, digits_append hrow hstops] at h
        split at h
        · rename_i d ds' heq
          obtain ⟨rfl, rfl⟩ := (Prod.mk.injEq _ _ _ _).mp heq
          cases h
          rw [List.append_nil]
          exact .present hmark hfront hrow fun hnil => by
            rw [← hrow.eq_nil_iff] at hnil
            cases hnil
        · cases h
      · cases h
  · intro h
    cases h with
    | absent => rfl
    | @present mark front cs negative ds isMark isSign digits nonempty =>
        have hdigits : Numeral.digits cs = (ds, []) := by
          simpa using digits_append digits stopsDigits_nil
        have hsign : sign (front ++ cs) = (negative, cs) :=
          sign_append isSign (by simpa using digits.head?_ne nonempty [])
        obtain ⟨d, ds, rfl⟩ := List.exists_cons_of_ne_nil (mt digits.eq_nil_iff.mp nonempty)
        simp [parseExponent?, isMark, hsign, hdigits]

/-- The parts of a numeral are found. -/
theorem parse?_of_isNumeral {cs : List Char} {n : Numeral} (h : IsNumeral cs n) :
    parse? cs = some n := by
  obtain ⟨isSign, isMantissa, isExponent⟩ := h
  rename_i front mantissa tail negative whole fraction exponent
  have hsign := sign_append isSign (isMantissa.head?_ne tail)
  have hexponent := parseExponent?_eq_some_iff.mpr isExponent
  cases isMantissa with
  | whole digits nonempty =>
      -- The point, which is looked for next, is not what an exponent starts with.
      have hpoint : point tail = (none, tail) := by
        cases isExponent with
        | absent => rfl
        | present isMark => rcases isMark with rfl | rfl <;> rfl
      have hne := mt digits.eq_nil_iff.mp nonempty
      simp [parse?, hsign, digits_append digits isExponent.stopsDigits, hpoint, hne, hexponent]
  | @pointed cs fs _ es digits nonempty behind =>
      have hdigits : Numeral.digits (cs ++ '.' :: fs ++ tail) = (whole, '.' :: (fs ++ tail)) := by
        rw [List.append_assoc]
        exact digits_append digits (stopsDigits_point _)
      have hne := mt digits.eq_nil_iff.mp nonempty
      simp only [parse?, hsign, hdigits, point, digits_append behind isExponent.stopsDigits]
      simp [hne, hexponent]
  | @fraction fs es behind nonempty =>
      have hdigits : Numeral.digits ('.' :: fs ++ tail) = ([], '.' :: (fs ++ tail)) :=
        digits_append .nil (stopsDigits_point _)
      have hne := mt behind.eq_nil_iff.mp nonempty
      simp only [parse?, hsign, hdigits, point, digits_append behind isExponent.stopsDigits]
      simp [hne, hexponent]

/-- Whatever the reader finds parts of is a numeral. -/
theorem isNumeral_of_parse? {cs : List Char} {n : Numeral} (h : parse? cs = some n) :
    IsNumeral cs n := by
  obtain ⟨front, rest, negative, rfl, hfront, hsign⟩ := exists_sign cs
  obtain ⟨row, last, ds, rfl, hrow, hstops⟩ := exists_digits rest
  simp only [parse?, hsign, digits_append hrow hstops] at h
  split at h
  · cases h
  · rename_i hnonempty
    obtain ⟨exponent, hexponent, rfl⟩ := Option.map_eq_some_iff.mp h
    rw [parseExponent?_eq_some_iff] at hexponent
    by_cases hpoint : ∃ behind, last = '.' :: behind
    · obtain ⟨behind, rfl⟩ := hpoint
      obtain ⟨fs, tail, es, rfl, hfs, htail⟩ := exists_digits behind
      simp only [point, digits_append hfs htail] at hnonempty hexponent ⊢
      rw [← List.cons_append, ← List.append_assoc row]
      refine .intro hfront ?_ hexponent
      by_cases hwhole : row = []
      · subst hwhole
        obtain rfl : ds = [] := hrow.eq_nil_iff.mpr rfl
        refine .fraction hfs fun hnil => hnonempty ⟨rfl, ?_⟩
        simpa using hfs.eq_nil_iff.mpr hnil
      · exact .pointed hrow hwhole hfs
    · have hnone : point last = (none, last) := by
        unfold point
        split
        · exact absurd ⟨_, rfl⟩ hpoint
        · rfl
      simp only [hnone] at hnonempty hexponent ⊢
      refine .intro hfront (.whole hrow fun hnil => hnonempty ⟨?_, rfl⟩) hexponent
      exact hrow.eq_nil_iff.mpr hnil

/-- Numerals are the words of the grammar, and the parts are those of the
grammar. -/
theorem parse?_eq_some_iff {cs : List Char} {n : Numeral} : parse? cs = some n ↔ IsNumeral cs n :=
  ⟨isNumeral_of_parse?, parse?_of_isNumeral⟩

/-- A row of digits stands for its positional value. -/
theorem positional_eq_ofDigits (ds : List Nat) : positional ds = Nat.ofDigits 10 ds.reverse := by
  rw [positional, Nat.ofDigits_eq_foldr, List.foldr_reverse]
  simp only [Nat.cast_id, Nat.add_comm]

/-- A numeral is an integer if it has digits only, and not too many. -/
theorem value_eq_int_iff {n : Numeral} {k : Int} :
    n.value = .int k ↔ n.fraction = none ∧ n.exponent = none ∧ n.whole.length ≤ 4300 ∧
      k = if n.negative then -((Nat.ofDigits 10 n.whole.reverse : Nat) : Int)
        else (Nat.ofDigits 10 n.whole.reverse : Nat) := by
  simp only [value, positional_eq_ofDigits, Option.isNone_iff_eq_none]
  split
  · rename_i hshort
    simp only [Number.int.injEq, hshort, true_and, eq_comm (a := k)]
    exact (and_iff_right (a := n.whole.length ≤ 4300) hshort.2.2).symm
  · rename_i hlong
    simp only [reduceCtorEq, false_iff]
    exact fun h => hlong ⟨h.1, h.2.1, h.2.2.1⟩

/-- The integer numerals are a sign and digits, at least one and not too many. -/
theorem exists_isNumeral_int_iff {cs : List Char} {k : Int} :
    (∃ n, IsNumeral cs n ∧ n.value = .int k) ↔
      ∃ sign row negative ds, cs = sign ++ row ∧ IsSign sign negative ∧ IsDigits row ds ∧
        1 ≤ row.length ∧ row.length ≤ 4300 ∧
        k = if negative then -((Nat.ofDigits 10 ds.reverse : Nat) : Int)
          else (Nat.ofDigits 10 ds.reverse : Nat) := by
  constructor
  · rintro ⟨n, ⟨isSign, isMantissa, isExponent⟩, hvalue⟩
    obtain ⟨hfraction, hexponent, hshort, hk⟩ := value_eq_int_iff.mp hvalue
    dsimp only at hfraction hexponent hshort hk
    subst hfraction hexponent
    cases isExponent
    cases isMantissa with
    | whole digits nonempty =>
        rw [← digits.length_eq] at hshort
        exact ⟨_, _, _, _, by rw [List.append_nil], isSign, digits,
          List.length_pos_of_ne_nil nonempty, hshort, hk⟩
  · rintro ⟨sign, row, negative, ds, rfl, hsign, hdigits, hpos, hshort, hk⟩
    refine ⟨⟨negative, ds, none, none⟩, ?_, ?_⟩
    · have hnumeral := IsNumeral.intro hsign
        (.whole hdigits (List.ne_nil_of_length_pos hpos)) .absent
      rwa [List.append_nil] at hnumeral
    · rw [hdigits.length_eq] at hshort
      exact value_eq_int_iff.mpr ⟨rfl, rfl, hshort, hk⟩

end Numeral

/-! ### Words -/

open Numeral (IsSign IsDigits IsNumeral)

/-- A word is the number of the numeral that it is, or else a symbol. -/
theorem Datum.ofWord_of_isNumeral {word : String} {n : Numeral} (h : IsNumeral word.toList n) :
    Datum.ofWord word = .number n.value := by
  simp [Datum.ofWord, Number.ofWord?, Numeral.parse?_of_isNumeral h]

theorem Datum.ofWord_of_not_isNumeral {word : String} (h : ¬ ∃ n, IsNumeral word.toList n) :
    Datum.ofWord word = .symbol word := by
  have hnone : Numeral.parse? word.toList = none :=
    Option.eq_none_iff_forall_ne_some.mpr fun n hn => h ⟨n, Numeral.isNumeral_of_parse? hn⟩
  simp [Datum.ofWord, Number.ofWord?, hnone]

theorem Datum.ofWord_eq_number_iff {word : String} {x : Number} :
    Datum.ofWord word = .number x ↔ ∃ n, IsNumeral word.toList n ∧ n.value = x := by
  constructor
  · intro h
    by_cases hnumeral : ∃ n, IsNumeral word.toList n
    · obtain ⟨n, hn⟩ := hnumeral
      rw [Datum.ofWord_of_isNumeral hn] at h
      exact ⟨n, hn, by injection h⟩
    · rw [Datum.ofWord_of_not_isNumeral hnumeral] at h
      cases h
  · rintro ⟨n, hn, rfl⟩
    exact Datum.ofWord_of_isNumeral hn

/-- A natural number with few enough digits is below the limit of the printer.
The bound is stated for any number of digits first, so that nothing evaluates the
power. -/
theorem lt_tooManyDigits {n : Nat} (h : (Nat.toDigits 10 n).length ≤ Numeral.maxDigits) :
    n < tooManyDigits := by
  have hbound : ∀ most, 0 < most → (Nat.toDigits 10 n).length ≤ most → n < Nat.pow 10 most :=
    fun most hpos hmost => (Nat.length_toDigits_le_iff (by decide) hpos).mp hmost
  unfold tooManyDigits
  exact hbound Numeral.maxDigits (by decide) h

/-- A text that is one symbol token is read as the datum of its word. -/
theorem read_of_lexes {word : String} (h : Lexes word.toList [⟨.symbol, word⟩])
    (hdot : word ≠ ".") (depth : Nat) : read depth word = ([Datum.ofWord word], none) := by
  have hlex : lex word = ([⟨.symbol, word⟩], none) := by
    simpa using lex_of_lexes h
  simp [read_eq_readTokens, readTokens_eq_restFrom, hlex, Cursor.restFrom, Datum.feed, Datum.start,
    Datum.deliver, Cursor.atEnd, hdot]

/-- A word is a number exactly if it is a numeral. It is an integer exactly if
it is an optional sign with 1 to 4300 digits behind it, and then the signed
positional value of the digits; with a point, an exponent or more digits it is a
real; and if it is no numeral it is the symbol of its name. In particular the
decimal text of an integer of at most 4300 digits is read as that integer. -/
theorem ofWord_classifies (word : String) :
    ((∃ x, Datum.ofWord word = .number x) ↔ ∃ n, IsNumeral word.toList n) ∧
    (∀ k, Datum.ofWord word = .number (.int k) ↔
      ∃ sign row negative ds, word.toList = sign ++ row ∧ IsSign sign negative ∧
        IsDigits row ds ∧ 1 ≤ row.length ∧ row.length ≤ 4300 ∧
        k = if negative then -((Nat.ofDigits 10 ds.reverse : Nat) : Int)
          else (Nat.ofDigits 10 ds.reverse : Nat)) ∧
    (∀ n, IsNumeral word.toList n →
      n.fraction.isSome ∨ n.exponent.isSome ∨ 4300 < n.whole.length →
        ∃ x, Datum.ofWord word = .number (.real x)) ∧
    ((¬ ∃ n, IsNumeral word.toList n) → Datum.ofWord word = .symbol word) ∧
    ∀ (k : Int) (depth : Nat), (Nat.toDigits 10 k.natAbs).length ≤ 4300 →
      Datum.ofWord (toString k) = .number (.int k) ∧
      read depth (toString k) = ([.number (.int k)], none) := by
  refine ⟨?number, fun k => ?int, fun n hn hlong => ?real, Datum.ofWord_of_not_isNumeral,
    fun k depth hshort => ?text⟩
  case number =>
    simp only [Datum.ofWord_eq_number_iff]
    exact ⟨fun ⟨_, n, hn, _⟩ => ⟨n, hn⟩, fun ⟨n, hn⟩ => ⟨n.value, n, hn, rfl⟩⟩
  case int =>
    rw [Datum.ofWord_eq_number_iff]
    exact Numeral.exists_isNumeral_int_iff
  case real =>
    rw [Datum.ofWord_of_isNumeral hn]
    cases hvalue : n.value with
    | real x => exact ⟨x, rfl⟩
    | int k =>
        obtain ⟨hfraction, hexponent, hshort, -⟩ := Numeral.value_eq_int_iff.mp hvalue
        simp [hfraction, hexponent] at hlong
        omega
  case text =>
    have hlimit : k.natAbs < tooManyDigits := lt_tooManyDigits hshort
    have hword : Datum.ofWord (toString k) = .number (.int k) := by
      rw [Datum.ofWord, ofWord?_toString_int hlimit]
    have hread := read_of_lexes (Datum.lexes_int k) (Datum.toString_int_ne (by decide)) depth
    exact ⟨hword, by rw [hread, hword]⟩

/-- Where the parts of the grammar overlap: a point may end a numeral or stand
alone in front of digits, but a sign, a point or a mark needs digits. -/
example : Datum.ofWord "1." = .number (.real (.ofDecimal false 1 0)) ∧
    Datum.ofWord ".5" = .number (.real (.ofDecimal false 5 (-1))) ∧
    Datum.ofWord "+." = .symbol "+." ∧ Datum.ofWord "1e" = .symbol "1e" ∧
    Datum.ofWord "-٤2" = .number (.int (-42)) := by
  exact ⟨rfl, rfl, rfl, rfl, rfl⟩

end MiniScheme
