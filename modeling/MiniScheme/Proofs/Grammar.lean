import MiniScheme.Datum
import MiniScheme.Token

/-!
# `MiniScheme.Proofs.Grammar`: what rows of tokens mean

The grammar of data, apart from any reader. A datum is written as a word,
a boolean, a string, a quote mark and a datum, a list, a list with a dot
before its last datum, or a vector. A `Phrase` is one derivation of this
grammar. It keeps the texts of its tokens, because the kind of a token
decides what it does, and not its text: only a dot is known by it.

`Phrase.tokens` is the row of tokens that a phrase derives, `Phrase.datum`
the datum that it stands for, and `Phrase.nesting` how many forms are open
at once in it.

The grammar is unambiguous: a row of tokens is derived by at most one row
of phrases (`tokensAll_injective`). No phrase starts with a closing
parenthesis or with a dot, so the end of a list is never in doubt, and no
phrase is a proper start of another (`tokens_append_inj`).
-/

set_option autoImplicit false

namespace MiniScheme

/-- A derivation of a datum. -/
inductive Phrase where
  /-- A number or a symbol. -/
  | word (text : String) (notDot : text ≠ ".")
  | boolean (text : String)
  | string (text : String)
  | quotation (mark : String) (datum : Phrase)
  | list (opening : String) (items : List Phrase) (closing : String)
  /-- A list with at least one datum before its dot. -/
  | dotted (opening : String) (first : Phrase) (items : List Phrase) (tail : Phrase)
      (closing : String)
  | vector (opening : String) (items : List Phrase) (closing : String)

/-- The dot of a dotted list. -/
def Token.dot : Token := ⟨.symbol, "."⟩

namespace Phrase

mutual

/-- The tokens that a phrase derives. -/
def tokens : Phrase → List Token
  | word text _ => [⟨.symbol, text⟩]
  | boolean text => [⟨.boolean, text⟩]
  | string text => [⟨.string, text⟩]
  | quotation mark p => ⟨.quote, mark⟩ :: p.tokens
  | list opening items closing => ⟨.lparen, opening⟩ :: (tokensAll items ++ [⟨.rparen, closing⟩])
  | dotted opening first items tail closing =>
    ⟨.lparen, opening⟩ ::
      (first.tokens ++ tokensAll items ++ .dot :: (tail.tokens ++ [⟨.rparen, closing⟩]))
  | vector opening items closing =>
    ⟨.vector, opening⟩ :: (tokensAll items ++ [⟨.rparen, closing⟩])

/-- The tokens of phrases in a row. -/
def tokensAll : List Phrase → List Token
  | [] => []
  | p :: ps => p.tokens ++ tokensAll ps

end

mutual

/-- The datum that a phrase stands for. -/
def datum : Phrase → Datum
  | word text _ => .ofWord text
  | boolean text => .boolean (text = "#t" ∨ text = "#true")
  | string text => .text (stringValue text)
  | quotation _ p => .quotation p.datum
  | list _ items _ => (dataAll items).foldr .pair .nil
  | dotted _ first items tail _ => .pair first.datum ((dataAll items).foldr .pair tail.datum)
  | vector _ items _ => .vector (dataAll items)

/-- The data that phrases in a row stand for. -/
def dataAll : List Phrase → List Datum
  | [] => []
  | p :: ps => p.datum :: dataAll ps

end

mutual

/-- How many forms are open at once in a phrase. -/
def nesting : Phrase → Nat
  | word .. | boolean _ | string _ => 0
  | quotation _ p => p.nesting + 1
  | list _ items _ | vector _ items _ => nestingAll items + 1
  | dotted _ first items tail _ =>
    max (max first.nesting (nestingAll items)) tail.nesting + 1

/-- How many forms are open at once in phrases in a row. -/
def nestingAll : List Phrase → Nat
  | [] => 0
  | p :: ps => max p.nesting (nestingAll ps)

end

/-! ### Phrases in a row -/

theorem tokensAll_append (ps qs : List Phrase) :
    tokensAll (ps ++ qs) = tokensAll ps ++ tokensAll qs := by
  induction ps with
  | nil => rfl
  | cons p ps ih => simp [tokensAll, ih]

theorem dataAll_append (ps qs : List Phrase) : dataAll (ps ++ qs) = dataAll ps ++ dataAll qs := by
  induction ps with
  | nil => rfl
  | cons p ps ih => simp [dataAll, ih]

theorem nestingAll_append (ps qs : List Phrase) :
    nestingAll (ps ++ qs) = max (nestingAll ps) (nestingAll qs) := by
  induction ps with
  | nil => simp [nestingAll]
  | cons p ps ih => simp [nestingAll, ih, Nat.max_assoc]

/-- The first datum of a dotted list is one in a row like those behind
it. -/
theorem tokens_dotted (opening : String) (first : Phrase) (items : List Phrase) (tail : Phrase)
    (closing : String) :
    (dotted opening first items tail closing).tokens = ⟨.lparen, opening⟩ ::
      (tokensAll (first :: items) ++ .dot :: (tail.tokens ++ [⟨.rparen, closing⟩])) := by
  simp [tokens, tokensAll]

/-- Induction over a phrase, where a list or vector may use the statement
for each of its items. -/
theorem treeInduction {motive : Phrase → Prop}
    (word : ∀ text notDot, motive (.word text notDot)) (boolean : ∀ text, motive (.boolean text))
    (string : ∀ text, motive (.string text))
    (quotation : ∀ mark p, motive p → motive (.quotation mark p))
    (list : ∀ opening items closing, (∀ p ∈ items, motive p) →
      motive (.list opening items closing))
    (dotted : ∀ opening first items tail closing, (∀ p ∈ first :: items, motive p) →
      motive tail → motive (.dotted opening first items tail closing))
    (vector : ∀ opening items closing, (∀ p ∈ items, motive p) →
      motive (.vector opening items closing)) (p : Phrase) : motive p := by
  have hcons {first : Phrase} {rest : List Phrase} (hfirst : motive first)
      (hrest : ∀ p ∈ rest, motive p) : ∀ p ∈ first :: rest, motive p := by
    intro p hp
    rcases List.mem_cons.mp hp with rfl | hp
    · exact hfirst
    · exact hrest p hp
  refine @Phrase.rec motive (fun items => ∀ p ∈ items, motive p) word boolean string quotation
    list ?_ vector ?_ ?_ p
  · intro opening first items tail closing hfirst hitems htail
    exact dotted opening first items tail closing (hcons hfirst hitems) htail
  · intro p hp
    exact absurd hp List.not_mem_nil
  · intro first rest hfirst hrest
    exact hcons hfirst hrest

/-! ### At most one derivation -/

/-- A token at which a row of phrases ends: a closing parenthesis or a
dot. -/
def EndsRow (t : Token) : Prop := t.kind = .rparen ∨ t = .dot

theorem endsRow_rparen (text : String) : EndsRow ⟨.rparen, text⟩ := .inl rfl

theorem endsRow_dot : EndsRow .dot := .inr rfl

/-- No phrase starts with a token at which a row ends. -/
theorem exists_tokens_eq_cons (p : Phrase) : ∃ t ts, p.tokens = t :: ts ∧ ¬ EndsRow t := by
  cases p with
  | word text notDot =>
      refine ⟨_, _, rfl, ?_⟩
      simp [EndsRow, Token.dot, notDot]
  | boolean | string | quotation | list | dotted | vector =>
      refine ⟨_, _, rfl, ?_⟩
      simp [EndsRow, Token.dot]

/-- No other phrase starts a row of tokens that this one starts. -/
def Decides (p : Phrase) : Prop :=
  ∀ q rest rest', p.tokens ++ rest = q.tokens ++ rest' → p = q ∧ rest = rest'

/-- Phrases that are each decided are so in a row, up to a token at which
the row ends. -/
theorem tokensAll_append_inj {ps : List Phrase} (h : ∀ p ∈ ps, Decides p) :
    ∀ {qs : List Phrase} {t t' : Token} {rest rest' : List Token}, EndsRow t → EndsRow t' →
      tokensAll ps ++ t :: rest = tokensAll qs ++ t' :: rest' →
      ps = qs ∧ t = t' ∧ rest = rest' := by
  -- A phrase on one side only would start with a token at which a row ends.
  have hstart {p : Phrase} {ts rest : List Token} {t : Token} (ht : EndsRow t) :
      t :: rest ≠ p.tokens ++ ts := by
    obtain ⟨first, more, hp, hfirst⟩ := exists_tokens_eq_cons p
    rw [hp]
    rintro heq
    cases heq
    exact hfirst ht
  induction ps with
  | nil =>
      intro qs t t' rest rest' ht _ heq
      cases qs with
      | nil =>
          cases heq
          exact ⟨rfl, rfl, rfl⟩
      | cons q qs =>
          rw [tokensAll, tokensAll, List.nil_append, List.append_assoc] at heq
          exact absurd heq (hstart ht)
  | cons p ps ih =>
      intro qs t t' rest rest' ht ht' heq
      cases qs with
      | nil =>
          rw [tokensAll, tokensAll, List.nil_append, List.append_assoc] at heq
          exact absurd heq.symm (hstart ht')
      | cons q qs =>
          rw [tokensAll, tokensAll, List.append_assoc, List.append_assoc] at heq
          obtain ⟨rfl, hrest⟩ := h p List.mem_cons_self q _ _ heq
          obtain ⟨rfl, htoken, hrest⟩ :=
            ih (fun p' hp' => h p' (List.mem_cons_of_mem p hp')) ht ht' hrest
          exact ⟨rfl, htoken, hrest⟩

/-- **No phrase is the start of another.** -/
theorem tokens_append_inj (p : Phrase) : Decides p := by
  induction p using treeInduction with
  | word | boolean | string =>
      intro q rest rest' heq
      cases q <;> simp_all [tokens]
  | quotation mark p ih =>
      intro q rest rest' heq
      cases q with
      | quotation mark' q =>
          simp only [tokens, List.cons_append, List.cons.injEq, Token.mk.injEq, true_and] at heq
          obtain ⟨rfl, hdatum⟩ := heq
          obtain ⟨rfl, hrest⟩ := ih q _ _ hdatum
          exact ⟨rfl, hrest⟩
      | _ => simp [tokens] at heq
  | list opening items closing ih =>
      intro q rest rest' heq
      cases q with
      | list opening' items' closing' =>
          simp only [tokens, List.cons_append, List.append_assoc, List.nil_append,
            List.cons.injEq, Token.mk.injEq, true_and] at heq
          obtain ⟨rfl, hitems⟩ := heq
          obtain ⟨rfl, hclosing, hrest⟩ :=
            tokensAll_append_inj ih (endsRow_rparen _) (endsRow_rparen _) hitems
          cases hclosing
          exact ⟨rfl, hrest⟩
      | dotted opening' first items' tail closing' =>
          -- One row ends at a parenthesis and the other at a dot.
          rw [tokens_dotted] at heq
          simp only [tokens, List.cons_append, List.append_assoc, List.nil_append,
            List.cons.injEq] at heq
          obtain ⟨-, htoken, -⟩ :=
            tokensAll_append_inj ih (endsRow_rparen _) endsRow_dot heq.2
          cases htoken
      | _ => simp [tokens] at heq
  | dotted opening first items tail closing ih ihtail =>
      intro q rest rest' heq
      rw [tokens_dotted] at heq
      cases q with
      | list opening' items' closing' =>
          simp only [tokens, List.cons_append, List.append_assoc, List.nil_append,
            List.cons.injEq] at heq
          obtain ⟨-, htoken, -⟩ :=
            tokensAll_append_inj ih endsRow_dot (endsRow_rparen _) heq.2
          cases htoken
      | dotted opening' first' items' tail' closing' =>
          rw [tokens_dotted] at heq
          simp only [List.cons_append, List.append_assoc, List.nil_append, List.cons.injEq,
            Token.mk.injEq, true_and] at heq
          obtain ⟨rfl, hitems⟩ := heq
          obtain ⟨hsame, -, htail⟩ := tokensAll_append_inj ih endsRow_dot endsRow_dot hitems
          cases hsame
          obtain ⟨rfl, hclosing⟩ := ihtail tail' _ _ htail
          cases hclosing
          exact ⟨rfl, rfl⟩
      | _ => simp [tokens] at heq
  | vector opening items closing ih =>
      intro q rest rest' heq
      cases q with
      | vector opening' items' closing' =>
          simp only [tokens, List.cons_append, List.append_assoc, List.nil_append,
            List.cons.injEq, Token.mk.injEq, true_and] at heq
          obtain ⟨rfl, hitems⟩ := heq
          obtain ⟨rfl, hclosing, hrest⟩ :=
            tokensAll_append_inj ih (endsRow_rparen _) (endsRow_rparen _) hitems
          cases hclosing
          exact ⟨rfl, hrest⟩
      | _ => simp [tokens] at heq

/-- A row of tokens has at most one derivation. -/
theorem tokensAll_injective {ps qs : List Phrase} (h : tokensAll ps = tokensAll qs) : ps = qs := by
  -- A dot behind both rows ends them.
  have hends : tokensAll ps ++ Token.dot :: [] = tokensAll qs ++ Token.dot :: [] := by rw [h]
  exact (tokensAll_append_inj (fun p _ => tokens_append_inj p) endsRow_dot endsRow_dot hends).1

end Phrase

end MiniScheme
