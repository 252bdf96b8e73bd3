import MiniScheme.Proofs.Grammar
import MiniScheme.Proofs.Parsing
import MiniScheme.Proofs.Unfolding

/-!
# `MiniScheme.Proofs.Acceptance`: the reader accepts exactly the grammar

A row of tokens is read without a fault exactly when it is derived by a row
of phrases that nest no deeper than the limit, and the data that are read
are those that the phrases stand for: `readTokens_iff_phrases`.

* What the grammar derives is read (`nextFrom_tokens`): the tokens of a
  phrase are read as if its datum were delivered in one step, whatever
  forms are open. This is an induction over the phrase.
* What is read is derived (`exists_phrases`). `Opened` ties the open forms
  to the tokens read so far: each form holds the data of phrases, which
  stand behind the token that opened it. Every token keeps this up
  (`Opened.feed`), and when a datum is complete so is its phrase.

The end of the tokens inside a form is always a fault, so no form ever
takes the end for one of its data (`nextFrom_ne_end`).
-/

set_option autoImplicit false

namespace MiniScheme

open Datum (Awaits feed deliver start openForm)
open Phrase (tokensAll dataAll nestingAll)

/-- The data of an open form are kept with the last one first. -/
theorem Datum.chain_eq_foldr (items : List Datum) (tail : Datum) :
    chain items tail = items.reverse.foldr .pair tail := by
  rw [chain, List.foldr_reverse]

namespace Phrase

/-! ### What is derived is read -/

/-- With room for its levels, the tokens of the phrase are read as if its
datum were delivered in one step. -/
def IsRead (p : Phrase) : Prop :=
  ∀ fault room stack ts, Awaits stack → p.nesting ≤ room →
    Cursor.nextFrom fault room stack (p.tokens ++ ts)
      = Cursor.proceed fault ts (deliver p.datum room stack)

/-- A phrase of one token is read as soon as it starts. -/
theorem isRead_of_start {p : Phrase} {t : Token} (htokens : p.tokens = [t])
    (hstart : ∀ room stack, start room stack t = deliver p.datum room stack)
    (hclose : t.kind ≠ .rparen) (hdot : t.kind = .symbol → t.text ≠ ".") : p.IsRead := by
  intro fault room stack ts hstack _
  have hfeed : feed room stack t = deliver p.datum room stack := by
    rw [Datum.feed_eq_start hstack hclose hdot, hstart]
  rw [htokens, List.singleton_append, Cursor.nextFrom_cons, hfeed]
  rw [hfeed]
  exact Datum.deliver_ne_decline _ _ _

/-- Phrases in a row are read one after the other into a form that takes
any number of data. -/
theorem nextFrom_tokensAll {form : List Datum → OpenForm}
    (hform : ∀ d room items outer,
      deliver d room (form items :: outer) = .more room (form (d :: items) :: outer))
    (hawaits : ∀ items outer, Awaits (form items :: outer)) {ps : List Phrase}
    (h : ∀ p ∈ ps, p.IsRead) :
    ∀ fault room items outer ts, nestingAll ps ≤ room →
      Cursor.nextFrom fault room (form items :: outer) (tokensAll ps ++ ts)
        = Cursor.nextFrom fault room (form ((dataAll ps).reverse ++ items) :: outer) ts := by
  induction ps with
  | nil => intro fault room items outer ts _; rfl
  | cons p ps ih =>
      intro fault room items outer ts hroom
      rw [nestingAll] at hroom
      rw [tokensAll, List.append_assoc,
        h p List.mem_cons_self fault room _ _ (hawaits items outer) (by omega), hform]
      show Cursor.nextFrom fault room (form (p.datum :: items) :: outer) _ = _
      rw [ih (fun q hq => h q (List.mem_cons_of_mem p hq)) _ _ _ _ _ (by omega)]
      simp [dataAll]

theorem nextFrom_items {ps : List Phrase} (h : ∀ p ∈ ps, p.IsRead) (fault : Option ReadError)
    {room : Nat} (items : List Datum) (outer : List OpenForm) (ts : List Token)
    (hroom : nestingAll ps ≤ room) :
    Cursor.nextFrom fault room (.list items :: outer) (tokensAll ps ++ ts)
      = Cursor.nextFrom fault room (.list ((dataAll ps).reverse ++ items) :: outer) ts := by
  have hform : ∀ d room items outer, deliver d room (.list items :: outer)
      = .more room (.list (d :: items) :: outer) := fun _ _ _ _ => rfl
  exact nextFrom_tokensAll hform (fun _ _ => trivial) h fault room items outer ts hroom

/-- **The tokens of a phrase are read as its datum**, whatever forms are
open around it. -/
theorem nextFrom_tokens (p : Phrase) : p.IsRead := by
  induction p using treeInduction with
  | word text notDot =>
      refine isRead_of_start rfl (fun room stack => ?_) (by simp) fun _ => notDot
      simp [start, notDot, datum]
  | boolean text =>
      exact isRead_of_start rfl (fun _ _ => rfl) (by simp) fun h => by cases h
  | string text =>
      exact isRead_of_start rfl (fun _ _ => rfl) (by simp) fun h => by cases h
  | quotation mark p ih =>
      intro fault room stack ts hstack hroom
      obtain ⟨room, rfl⟩ : ∃ n, room = n + 1 := ⟨room - 1, by rw [nesting] at hroom; omega⟩
      rw [nesting] at hroom
      rw [tokens, List.cons_append, Datum.nextFrom_open hstack rfl (by simp) (by simp),
        ih fault room (.quotation :: stack) ts trivial (by omega)]
      rfl
  | list opening items closing ih =>
      intro fault room stack ts hstack hroom
      obtain ⟨room, rfl⟩ : ∃ n, room = n + 1 := ⟨room - 1, by rw [nesting] at hroom; omega⟩
      rw [nesting] at hroom
      rw [tokens, List.cons_append, Datum.nextFrom_open hstack rfl (by simp) (by simp),
        List.append_assoc, nextFrom_items ih fault [] stack _ (by omega), List.singleton_append,
        Cursor.nextFrom_cons]
      · simp [feed, Datum.chain_eq_foldr, datum]
      · exact Datum.deliver_ne_decline _ _ _
  | dotted opening first items tail closing ih ihtail =>
      intro fault room stack ts hstack hroom
      obtain ⟨room, rfl⟩ : ∃ n, room = n + 1 := ⟨room - 1, by rw [nesting] at hroom; omega⟩
      have hrow : nestingAll (first :: items) ≤ room := by
        rw [nesting] at hroom
        rw [nestingAll]
        omega
      have htail : tail.nesting ≤ room := by rw [nesting] at hroom; omega
      have hdot : feed room (.list ((dataAll (first :: items)).reverse ++ []) :: stack) .dot
          = .more room (.tail ((dataAll (first :: items)).reverse ++ []) :: stack) := by
        simp [feed, Token.dot, dataAll]
      rw [tokens_dotted, List.cons_append, Datum.nextFrom_open hstack rfl (by simp) (by simp),
        List.append_assoc, nextFrom_items ih fault [] stack _ hrow, List.cons_append,
        Cursor.nextFrom_cons _ _ _ _ _ (by rw [hdot]; rintro e ⟨⟩), hdot]
      show Cursor.nextFrom fault room (.tail _ :: stack) _ = _
      rw [List.append_assoc, ihtail fault room (.tail _ :: stack) _ trivial htail]
      -- The tail is there; only the end of the list may follow.
      show Cursor.nextFrom fault room (.ending _ tail.datum :: stack) _ = _
      rw [List.singleton_append, Cursor.nextFrom_cons]
      · simp [feed, Datum.chain_eq_foldr, datum, dataAll]
      · exact Datum.deliver_ne_decline _ _ _
  | vector opening items closing ih =>
      intro fault room stack ts hstack hroom
      obtain ⟨room, rfl⟩ : ∃ n, room = n + 1 := ⟨room - 1, by rw [nesting] at hroom; omega⟩
      rw [nesting] at hroom
      have hform : ∀ d room items outer, deliver d room (.vector items :: outer)
          = .more room (.vector (d :: items) :: outer) := fun _ _ _ _ => rfl
      rw [tokens, List.cons_append, Datum.nextFrom_open hstack rfl (by simp) (by simp),
        List.append_assoc, nextFrom_tokensAll hform (fun _ _ => trivial) ih fault room [] stack _
          (by omega), List.singleton_append, Cursor.nextFrom_cons]
      · simp [feed, datum]
      · exact Datum.deliver_ne_decline _ _ _

/-- Phrases in a row are read as the data that they stand for. -/
theorem restFrom_tokensAll {depth : Nat} (ps : List Phrase) (h : nestingAll ps ≤ depth) :
    ∀ read : List Datum, Cursor.restFrom depth none read depth [] (tokensAll ps)
      = (read.reverse ++ dataAll ps, none, ⟨[], none⟩) := by
  induction ps with
  | nil => intro read; simp [Cursor.restFrom, Cursor.atEnd, tokensAll, dataAll]
  | cons p ps ih =>
      intro read
      rw [nestingAll] at h
      -- The reader takes the tokens of the first phrase and starts again behind it.
      rw [tokensAll, Cursor.restFrom_eq, nextFrom_tokens p none depth [] _ trivial (by omega)]
      show Cursor.restFrom depth none (p.datum :: read) depth [] _ = _
      rw [ih (by omega)]
      simp [dataAll]

end Phrase

/-! ### What is read is derived -/

/-- These forms are open behind these tokens, and so much room is left of
`depth`. Each form holds the data of phrases that stand behind the token
that opened it, and all but the innermost one still await a datum. -/
inductive Opened (depth : Nat) : Nat → List OpenForm → List Token → Prop
  | none : Opened depth depth [] []
  | quotation {room : Nat} {outer : List OpenForm} {ts : List Token} (mark : String)
      (around : Opened depth (room + 1) outer ts) (awaits : Awaits outer) :
      Opened depth room (.quotation :: outer) (ts ++ [⟨.quote, mark⟩])
  | list {room : Nat} {outer : List OpenForm} {ts : List Token} (opening : String)
      (items : List Phrase) (fits : nestingAll items ≤ room)
      (around : Opened depth (room + 1) outer ts) (awaits : Awaits outer) :
      Opened depth room (.list (dataAll items).reverse :: outer)
        (ts ++ ⟨.lparen, opening⟩ :: tokensAll items)
  | tail {room : Nat} {outer : List OpenForm} {ts : List Token} (opening : String)
      (first : Phrase) (items : List Phrase) (fits : nestingAll (first :: items) ≤ room)
      (around : Opened depth (room + 1) outer ts) (awaits : Awaits outer) :
      Opened depth room (.tail (dataAll (first :: items)).reverse :: outer)
        (ts ++ ⟨.lparen, opening⟩ :: (tokensAll (first :: items) ++ [.dot]))
  | ending {room : Nat} {outer : List OpenForm} {ts : List Token} (opening : String)
      (first : Phrase) (items : List Phrase) (tail : Phrase)
      (fits : nestingAll (first :: items) ≤ room) (tailFits : tail.nesting ≤ room)
      (around : Opened depth (room + 1) outer ts) (awaits : Awaits outer) :
      Opened depth room (.ending (dataAll (first :: items)).reverse tail.datum :: outer)
        (ts ++ ⟨.lparen, opening⟩ :: (tokensAll (first :: items) ++ .dot :: tail.tokens))
  | vector {room : Nat} {outer : List OpenForm} {ts : List Token} (opening : String)
      (items : List Phrase) (fits : nestingAll items ≤ room)
      (around : Opened depth (room + 1) outer ts) (awaits : Awaits outer) :
      Opened depth room (.vector (dataAll items).reverse :: outer)
        (ts ++ ⟨.vector, opening⟩ :: tokensAll items)

/-- A step that leaves these tokens behind it has a derivation: of the
datum that it completes, or of the forms that it leaves open. -/
def Datum.Step.Derived (depth : Nat) (ts : List Token) : Datum.Step → Prop
  | .done d => ∃ p : Phrase, p.datum = d ∧ p.tokens = ts ∧ p.nesting ≤ depth
  | .more room stack => Opened depth room stack ts
  | .reject _ | .decline _ => True

namespace Opened

variable {depth room : Nat} {stack : List OpenForm} {ts : List Token}

/-- A phrase that is complete goes to the forms that are open. -/
theorem deliver (h : Opened depth room stack ts) (hawaits : Awaits stack) (p : Phrase)
    (hp : p.nesting ≤ room) :
    (Datum.deliver p.datum room stack).Derived depth (ts ++ p.tokens) := by
  induction h generalizing p with
  | none => exact ⟨p, rfl, rfl, hp⟩
  | @quotation room outer ts mark _ houter ih =>
      -- The quotation is then complete itself, with the phrase in it.
      have hquoted := ih houter (.quotation mark p) (by rw [Phrase.nesting]; omega)
      rwa [Phrase.tokens, ← List.singleton_append, ← List.append_assoc] at hquoted
  | @list room outer ts opening items fits around houter =>
      have hfits : nestingAll (items ++ [p]) ≤ room := by
        simp only [Phrase.nestingAll_append, nestingAll]
        omega
      have hnext := Opened.list opening (items ++ [p]) hfits around houter
      rw [Phrase.dataAll_append, List.reverse_append, Phrase.tokensAll_append, tokensAll,
        tokensAll, List.append_nil, ← List.cons_append, ← List.append_assoc] at hnext
      exact hnext
  | @tail room outer ts opening first items fits around houter =>
      rw [List.append_assoc, List.cons_append, List.append_assoc, List.singleton_append]
      exact .ending opening first items p fits hp around houter
  | ending => exact absurd hawaits id
  | @vector room outer ts opening items fits around houter =>
      have hfits : nestingAll (items ++ [p]) ≤ room := by
        simp only [Phrase.nestingAll_append, nestingAll]
        omega
      have hnext := Opened.vector opening (items ++ [p]) hfits around houter
      rw [Phrase.dataAll_append, List.reverse_append, Phrase.tokensAll_append, tokensAll,
        tokensAll, List.append_nil, ← List.cons_append, ← List.append_assoc] at hnext
      exact hnext

/-- A token where a datum has to start. -/
theorem start (h : Opened depth room stack ts) (hawaits : Awaits stack) (t : Token) :
    (Datum.start room stack t).Derived depth (ts ++ [t]) := by
  obtain ⟨kind, text⟩ := t
  cases kind with
  | symbol =>
      by_cases hdot : text = "."
      · simp [Datum.start, hdot, Datum.Step.Derived]
      · have hword := h.deliver hawaits (.word text hdot) (Nat.zero_le room)
        have hstart : Datum.start room stack ⟨.symbol, text⟩
            = Datum.deliver (.ofWord text) room stack := if_neg hdot
        rw [hstart]
        exact hword
  | boolean => exact h.deliver hawaits (.boolean text) (Nat.zero_le room)
  | string => exact h.deliver hawaits (.string text) (Nat.zero_le room)
  | quote =>
      cases room with
      | zero => trivial
      | succ room => exact .quotation text h hawaits
  | lparen =>
      cases room with
      | zero => trivial
      | succ room => exact .list text [] (Nat.zero_le room) h hawaits
  | vector =>
      cases room with
      | zero => trivial
      | succ room => exact .vector text [] (Nat.zero_le room) h hawaits
  | rparen | other => trivial

/-- Every token keeps the derivation up. -/
theorem feed (h : Opened depth room stack ts) (t : Token) :
    (Datum.feed room stack t).Derived depth (ts ++ [t]) := by
  obtain ⟨kind, text⟩ := t
  have hself := h
  cases h with
  | none => exact hself.start trivial _
  | quotation =>
      rw [Datum.feed]
      split
      · trivial
      · exact hself.start trivial _
  | @list room outer ts opening items fits around houter =>
      rw [Datum.feed]
      split
      · -- The list is complete, and goes to the forms around it.
        rename_i hclose
        obtain rfl : kind = .rparen := hclose
        have hlist := around.deliver houter (.list opening items text)
          (by rw [Phrase.nesting]; omega)
        rw [Datum.chain_eq_foldr, List.reverse_reverse, List.append_assoc]
        exact hlist
      · split
        · rename_i hdot
          obtain ⟨rfl, rfl⟩ := hdot
          cases items with
          | nil => trivial
          | cons first items =>
              rw [if_neg (by simp [dataAll]), List.append_assoc]
              exact .tail opening first items fits around houter
        · exact hself.start trivial _
  | tail =>
      rw [Datum.feed]
      split
      · trivial
      · exact hself.start trivial _
  | @ending room outer ts opening first items tail fits tailFits around houter =>
      rw [Datum.feed]
      split
      · rename_i hclose
        obtain rfl : kind = .rparen := hclose
        have hlist := around.deliver houter (.dotted opening first items tail text)
          (by rw [Phrase.nesting]; rw [nestingAll] at fits; omega)
        rw [Phrase.tokens_dotted] at hlist
        rw [Datum.chain_eq_foldr, List.reverse_reverse, List.append_assoc, List.cons_append,
          List.append_assoc, List.cons_append]
        exact hlist
      · trivial
  | @vector room outer ts opening items fits around houter =>
      rw [Datum.feed]
      split
      · rename_i hclose
        obtain rfl : kind = .rparen := hclose
        have hvector := around.deliver houter (.vector opening items text)
          (by rw [Phrase.nesting]; omega)
        rw [List.reverse_reverse, List.append_assoc]
        exact hvector
      · exact hself.start trivial _

/-- Only the empty row of tokens leaves nothing open. -/
theorem eq_nil (h : Opened depth room [] ts) : ts = [] := by
  cases h
  rfl

end Opened

/-- What is read without a fault, behind tokens that left forms open, is
derived together with those tokens. -/
theorem exists_phrases {depth : Nat} (us : List Token) :
    ∀ {room : Nat} {stack : List OpenForm} {ts : List Token} {read : List Datum},
      Opened depth room stack ts → (Cursor.restFrom depth none read room stack us).2.1 = none →
      ∃ ps : List Phrase, tokensAll ps = ts ++ us ∧
        (Cursor.restFrom depth none read room stack us).1 = read.reverse ++ dataAll ps ∧
        nestingAll ps ≤ depth := by
  induction us with
  | nil =>
      intro room stack ts read hopened hread
      cases stack with
      | nil =>
          rw [hopened.eq_nil]
          exact ⟨[], rfl, by simp [Cursor.restFrom, Cursor.atEnd, dataAll], Nat.zero_le depth⟩
      | cons form outer => simp [Cursor.restFrom, Cursor.atEnd] at hread
  | cons t us ih =>
      intro room stack ts read hopened hread
      have hderived := hopened.feed t
      rw [Cursor.restFrom] at hread ⊢
      cases hfeed : Datum.feed room stack t with
      | done d =>
          -- A phrase is complete, and the rest starts afresh.
          rw [hfeed] at hderived
          simp only [hfeed] at hread ⊢
          obtain ⟨p, rfl, hp, hnesting⟩ := hderived
          obtain ⟨ps, htokens, hdata, hdepth⟩ := ih .none hread
          refine ⟨p :: ps, ?_, ?_, ?_⟩
          · rw [tokensAll, hp, htokens]
            simp
          · rw [hdata, dataAll]
            simp
          · rw [nestingAll]
            omega
      | more room' stack' =>
          rw [hfeed] at hderived
          simp only [hfeed] at hread ⊢
          obtain ⟨ps, htokens, hdata, hdepth⟩ := ih hderived hread
          exact ⟨ps, by rw [htokens]; simp, hdata, hdepth⟩
      | reject f => simp [hfeed] at hread
      | decline f => simp [hfeed] at hread

/-! ### The end of the tokens -/

/-- Inside a form the reader never takes the end of the tokens for a
datum: it gives one or fails. -/
theorem Cursor.nextFrom_ne_end (fault : Option ReadError) (ts : List Token) :
    ∀ (room : Nat) (stack : List OpenForm), stack ≠ [] →
      (Cursor.nextFrom fault room stack ts).1 ≠ .ok none := by
  induction ts with
  | nil =>
      intro room stack hstack
      cases stack with
      | nil => exact absurd rfl hstack
      | cons form outer => cases fault <;> simp [nextFrom, atEnd, Except.map]
  | cons t ts ih =>
      intro room stack hstack
      have hregular := Datum.feed_regular room stack t
      rw [nextFrom]
      cases hfeed : Datum.feed room stack t with
      | more room' stack' =>
          rw [hfeed] at hregular
          exact ih room' stack' hregular.1
      | done | reject | decline => simp

/-- The value stands in another one: it is that value, or a field of a pair
or an element of a vector that stands in it. -/
inductive Store.StandsIn (s : Store) (v : Value) : Value → Prop
  | self : StandsIn s v v
  | car {r : Ref} {c : Cell} (pair : StandsIn s v (.pair r)) (cell : s.cells[r]? = some c) :
      StandsIn s v c.car
  | cdr {r : Ref} {c : Cell} (pair : StandsIn s v (.pair r)) (cell : s.cells[r]? = some c) :
      StandsIn s v c.cdr
  | item {r : Ref} {items : List Value} {w : Value} (vector : StandsIn s v (.vector r))
      (contents : s.vectors[r]? = some items) (mem : w ∈ items) : StandsIn s v w

/-- Whatever stands in a finite tree is a finite tree of data itself. -/
theorem Store.StandsIn.exists_unfolds {s : Store} {v w : Value} {d : Datum}
    (hv : s.Unfolds v d) (h : s.StandsIn v w) : ∃ e, s.Unfolds w e := by
  induction h with
  | self => exact ⟨d, hv⟩
  | car _ cell ih =>
      obtain ⟨e, he⟩ := ih
      cases he with
      | pair cell' first rest =>
          obtain rfl := Option.some.inj (cell.symm.trans cell')
          exact ⟨_, first⟩
  | cdr _ cell ih =>
      obtain ⟨e, he⟩ := ih
      cases he with
      | pair cell' first rest =>
          obtain rfl := Option.some.inj (cell.symm.trans cell')
          exact ⟨_, rest⟩
  | item _ contents mem ih =>
      obtain ⟨e, he⟩ := ih
      cases he with
      | vector contents' same each =>
          obtain rfl := Option.some.inj (contents.symm.trans contents')
          obtain ⟨i, hi, rfl⟩ := List.getElem_of_mem mem
          exact ⟨_, each i hi (same ▸ hi)⟩

/-! ### The grammar of the reader -/

/-- **The reader accepts exactly its grammar.** A row of tokens is read as
these data without a fault if and only if it is derived by a row of phrases
that stand for them and nest no deeper than the limit. The row is derived
in no other way. Inside a form the end of the tokens is never given in
place of a datum, and nowhere in what is read does it stand as a value. -/
theorem readTokens_iff_phrases (depth : Nat) (ts : List Token) :
    (∀ data, readTokens depth ts none = (data, none) ↔
      ∃ ps : List Phrase, tokensAll ps = ts ∧ dataAll ps = data ∧ nestingAll ps ≤ depth) ∧
    (∀ ps qs : List Phrase, tokensAll ps = ts → tokensAll qs = ts → ps = qs) ∧
    (∀ fault room form outer,
      (Cursor.nextFrom fault room (form :: outer) ts).1 ≠ .ok none) ∧
    ∀ d ∈ (readTokens depth ts none).1, ∀ (s : Store) (v : Value),
      (s.load d).2.StandsIn (s.load d).1 v → v ≠ .foreign .none := by
  refine ⟨fun data => ⟨fun hread => ?_, ?_⟩, ?_, ?_, ?_⟩
  · rw [readTokens_eq_restFrom, Prod.mk.injEq] at hread
    obtain ⟨ps, htokens, hdata, hdepth⟩ := exists_phrases ts .none hread.2
    exact ⟨ps, htokens, hdata.symm.trans hread.1, hdepth⟩
  · rintro ⟨ps, rfl, rfl, hdepth⟩
    rw [readTokens_eq_restFrom, Phrase.restFrom_tokensAll ps hdepth]
    rfl
  · intro ps qs hps hqs
    exact Phrase.tokensAll_injective (hps.trans hqs.symm)
  · intro fault room form outer
    exact Cursor.nextFrom_ne_end fault ts room (form :: outer) (List.cons_ne_nil form outer)
  · rintro d - s v hv rfl
    obtain ⟨e, he⟩ := hv.exists_unfolds (Store.unfolds_load d s)
    cases he

/-- The tokens of `'(a . #(#t)) ()` are read as two data. -/
example : (readTokens 3 [⟨.quote, "'"⟩, ⟨.lparen, "("⟩, ⟨.symbol, "a"⟩, ⟨.symbol, "."⟩,
    ⟨.vector, "#("⟩, ⟨.boolean, "#t"⟩, ⟨.rparen, ")"⟩, ⟨.rparen, ")"⟩, ⟨.lparen, "("⟩,
    ⟨.rparen, ")"⟩] none)
    = ([.quotation (.pair (.ofWord "a") (.vector [.boolean true])), .nil], none) := by
  rfl

end MiniScheme
