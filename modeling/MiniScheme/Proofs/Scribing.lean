import MiniScheme.Proofs.Printing

/-!
# `MiniScheme.Proofs.Scribing`: printing with one set of active pairs

`Store.writeTo` hands the active pairs down and never takes one back. Here is
the printer with a single set of them that is changed in place: a pair is
added when its list comes to it, and all pairs of a list are removed together
when the list ends. The `Page` that it works on has the text so far and a
record of every cycle mark, with the pairs and vectors around it.

`copies_scribeTo` says that both printers write the same text or fail alike.
The reason is that every call leaves the active pairs as it found them, whatever
is written in between (`active_scribeTo`): the pairs of a list are added when
they are not active, so removing them removes nothing else.
-/

set_option autoImplicit false

namespace MiniScheme

/-! ### Pages -/

/-- A place where a pair was marked instead of written: the pairs and vectors
around it, the innermost first, and the pair. -/
structure Mark where
  trail : List Value
  cell : Ref
deriving DecidableEq

/-- The text so far, the pairs that are active, and the marks so far, the last
one first. -/
structure Page where
  out : String := ""
  active : Active := ∅
  marks : List Mark := []

namespace Page

/-- Adds to the text. -/
def print (p : Page) (t : String) : Page := { p with out := p.out ++ t }

/-- Adds one character to the text. -/
def push (p : Page) (c : Char) : Page := { p with out := p.out.push c }

/-- The pair is written from here on. -/
def enter (p : Page) (r : Ref) : Page := { p with active := p.active.insert r }

/-- The list with these pairs ends here. -/
def leave (p : Page) (chain : List Ref) : Page :=
  { p with active := chain.foldl (fun active r => active.erase r) p.active }

/-- Marks a pair instead of writing it. -/
def mark (p : Page) (trail : List Value) (r : Ref) : Page :=
  { p with out := p.out ++ cycleMark, marks := ⟨trail, r⟩ :: p.marks }

end Page

/-- Writes a value on a page, inside of the given pairs and vectors. -/
abbrev Scribe := (trail : List Value) → Page → Value → Except Fault Page

namespace Store

/-! ### The printer -/

/-- The text of a value that has no parts. -/
def leafText? (s : Store) : Value → Option String
  | .number n => n.text?
  | .text _ t => some (writtenString t)
  | .symbol name => some name
  | .boolean b => some (if b then "#t" else "#f")
  | .nil => some "()"
  | .emptySequence => some "#<empty-begin>"
  | .primitive r => some (((s.primitives[r]?).map Primitive.text).getD cycleMark)
  | .foreign f => some f.text
  | .pair _ | .vector _ | .closure _ => none

/-- Writes the rest of a list whose pairs so far are the chain, and ends the
list. -/
def scribeRest (s : Store) (element : Scribe) : Nat → (chain : List Ref) → Scribe
  | 0, _, _, _, _ => .error .endless
  | fuel + 1, chain, trail, page, rest =>
    match s.inactive? page.active rest with
    | some (r, c) => do
      let page ← element (rest :: trail) ((page.push ' ').enter r) c.car
      scribeRest s element fuel (r :: chain) (rest :: trail) page c.cdr
    | none =>
      if rest = .nil then .ok ((page.push ')').leave chain)
      else do
        let page ← element trail (page.print " . ") rest
        .ok ((page.push ')').leave chain)

/-- Writes elements with a blank between any two. -/
def scribeItems (element : Scribe) (trail : List Value) : Page → List Value → Except Fault Page
  | page, [] => .ok page
  | page, [v] => element trail page v
  | page, v :: vs => do
    let page ← element trail page v
    scribeItems element trail (page.push ' ') vs

/-- Writes a value whose parts `element` writes. The parameters of a closure
are a text of their own, with active pairs of its own. -/
def scribeValue (s : Store) (element : Scribe) : Scribe := fun trail page v =>
  match v with
  | .pair r =>
    match s.inactive? page.active v with
    | some (_, c) => do
      let page ← element (v :: trail) ((page.push '(').enter r) c.car
      s.scribeRest element (s.cells.size + 1) [r] (v :: trail) page c.cdr
    | none => .ok (page.mark trail r)
  | .vector r => do
    let page ← scribeItems element (v :: trail) (page.print "#(") (s.vectors[r]?.getD [])
    .ok (page.push ')')
  | .closure r =>
    match s.closures[r]? with
    | some k => do
      let inner ← element [] { page.print "#<closure (lambda " with active := ∅ } k.formals
      .ok { inner.print ")>" with active := page.active }
    | none => .ok (page.print cycleMark)
  | v =>
    match s.leafText? v with
    | some t => .ok (page.print t)
    | none => .error .tooManyDigits

/-- Writes a value with at most `depth` levels of nesting. -/
def scribeTo (s : Store) : (depth : Nat) → Scribe
  | 0 => fun _ _ _ => .error .tooDeep
  | depth + 1 => s.scribeValue (scribeTo s depth)

/-- Writes a value on a page of its own. -/
def scribe (s : Store) (depth : Nat) (v : Value) : Except Fault Page := s.scribeTo depth [] {} v

/-! ### Active pairs -/

/-- The same pairs are active. -/
def SameActive (a b : Active) : Prop := ∀ r, r ∈ a ↔ r ∈ b

theorem SameActive.insert {a b : Active} (h : SameActive a b) (r : Ref) :
    SameActive (a.insert r) (b.insert r) := by
  intro q
  simp only [Std.TreeSet.mem_insert, h q]

theorem SameActive.inactive?_eq {a b : Active} (h : SameActive a b) (s : Store) (v : Value) :
    s.inactive? a v = s.inactive? b v := by
  cases v with
  | pair r => simp only [inactive?, h r]
  | _ => rfl

theorem mem_foldl_erase (chain : List Ref) (active : Active) (r : Ref) :
    r ∈ chain.foldl (fun active q => active.erase q) active ↔ r ∈ active ∧ r ∉ chain := by
  induction chain generalizing active with
  | nil => simp
  | cons q chain ih =>
      rw [List.foldl_cons, ih, Std.TreeSet.mem_erase, List.mem_cons, not_or, ne_eq,
        Std.LawfulEqCmp.compare_eq_iff_eq, eq_comm]
      tauto

/-- After a list its pairs are no longer active, and all others are as they
were. -/
theorem sameActive_leave {page : Page} {chain : List Ref} {active before : Active}
    (hpage : SameActive page.active active)
    (hactive : ∀ r, r ∈ active ↔ r ∈ before ∨ r ∈ chain) (hnew : ∀ r ∈ chain, r ∉ before) :
    SameActive (page.leave chain).active before := by
  intro r
  have hold : r ∈ before → r ∉ chain := fun hr hchain => hnew r hchain hr
  rw [Page.leave, mem_foldl_erase, hpage r, hactive r]
  tauto

/-! ### Both printers -/

/-- The page has the text that was written, and these pairs are active on it.
Or both have failed alike. -/
inductive Copies (active : Active) : Except Fault String → Except Fault Page → Prop
  | ok {out : String} {page : Page} (text : page.out = out) (same : SameActive page.active active) :
      Copies active (.ok out) (.ok page)
  | error (f : Fault) : Copies active (.error f) (.error f)

theorem Copies.bind {active active' : Active} {x : Except Fault String} {y : Except Fault Page}
    {f : String → Except Fault String} {g : Page → Except Fault Page} (h : Copies active x y)
    (hf : ∀ page, SameActive page.active active → Copies active' (f page.out) (g page)) :
    Copies active' (x >>= f) (y >>= g) := by
  cases h with
  | ok text same =>
      subst text
      exact hf _ same
  | error fault => exact .error fault

/-- Wherever the same pairs are active, the scribe writes what the writer
writes, and leaves the active pairs as they were. -/
def ScribeCopies (writer : Writer) (scribe : Scribe) : Prop :=
  ∀ (active : Active) (trail : List Value) (page : Page) (v : Value),
    SameActive page.active active → Copies active (writer active page.out v) (scribe trail page v)

variable {s : Store} {writer : Writer} {element : Scribe}

/-- While a list is written, the pairs of its chain are active besides those
that were so before. At its end they are taken back together. -/
theorem copies_scribeRest (he : ScribeCopies writer element) (fuel : Nat) :
    ∀ {chain : List Ref} (trail : List Value) {page : Page} {active before : Active}
      (rest : Value), SameActive page.active active →
      (∀ r, r ∈ active ↔ r ∈ before ∨ r ∈ chain) → (∀ r ∈ chain, r ∉ before) →
      Copies before (s.writeRest writer fuel active page.out rest)
        (s.scribeRest element fuel chain trail page rest) := by
  induction fuel with
  | zero => intros; exact .error _
  | succ fuel ih =>
      intro chain trail page active before rest hpage hactive hnew
      rw [writeRest, scribeRest, hpage.inactive?_eq]
      cases hrest : s.inactive? active rest with
      | some found =>
          obtain ⟨r, c⟩ := found
          -- The pair was not active before the list, so the list may take it back.
          obtain ⟨-, hr, -⟩ := inactive?_eq_some.mp hrest
          refine Copies.bind (he (active.insert r) (rest :: trail) ((page.push ' ').enter r) c.car
            (hpage.insert r)) fun page' hpage' => ?_
          refine ih (rest :: trail) c.cdr hpage' (fun q => ?_) fun q hq => ?_
          · rw [Std.TreeSet.mem_insert, Std.LawfulEqCmp.compare_eq_iff_eq, hactive q,
              List.mem_cons, eq_comm]
            tauto
          · rcases List.mem_cons.mp hq with rfl | hq
            · exact fun hbefore => hr ((hactive q).mpr (.inl hbefore))
            · exact hnew q hq
      | none =>
          dsimp only
          split
          · exact .ok rfl (sameActive_leave hpage hactive hnew)
          · exact Copies.bind (he active trail (page.print " . ") rest hpage) fun page' hpage' =>
              .ok rfl (sameActive_leave hpage' hactive hnew)

theorem copies_scribeItems (he : ScribeCopies writer element) (trail : List Value)
    {active : Active} (items : List Value) : ∀ page : Page, SameActive page.active active →
      Copies active (writeItems writer active page.out items)
        (scribeItems element trail page items) := by
  induction items with
  | nil => intro page hpage; exact .ok rfl hpage
  | cons v items ih =>
      intro page hpage
      cases items with
      | nil => exact he active trail page v hpage
      | cons w items =>
          exact Copies.bind (he active trail page v hpage) fun page' hpage' =>
            ih (page'.push ' ') hpage'

theorem copies_scribeValue (he : ScribeCopies writer element) :
    ScribeCopies (s.writeValue writer) (s.scribeValue element) := by
  intro active trail page v hpage
  cases v with
  | pair r =>
      rw [writeValue, scribeValue, hpage.inactive?_eq]
      cases hr : s.inactive? active (.pair r) with
      | none => exact .ok rfl hpage
      | some found =>
          obtain ⟨q, c⟩ := found
          obtain ⟨hpair, hq, -⟩ := inactive?_eq_some.mp hr
          cases hpair
          refine Copies.bind (he (active.insert r) _ ((page.push '(').enter r) c.car
            (hpage.insert r)) fun page' hpage' => ?_
          refine copies_scribeRest he _ _ c.cdr hpage' (fun p => ?_) fun p hp => ?_
          · rw [Std.TreeSet.mem_insert, Std.LawfulEqCmp.compare_eq_iff_eq, List.mem_singleton,
              eq_comm, or_comm]
          · rw [List.mem_singleton.mp hp]
            exact hq
  | vector r =>
      exact Copies.bind (copies_scribeItems he _ _ (page.print "#(") hpage) fun page' hpage' =>
        .ok rfl hpage'
  | closure r =>
      rw [writeValue, scribeValue]
      cases s.closures[r]? with
      | none => exact .ok rfl hpage
      | some k =>
          exact Copies.bind (he ∅ [] { page.print "#<closure (lambda " with active := ∅ } k.formals
            fun q => .rfl) fun inner _ => .ok rfl hpage
  | number n =>
      simp only [writeValue, scribeValue, leafText?]
      cases n.text? with
      | none => exact .error _
      | some t => exact .ok rfl hpage
  | text | symbol | boolean | nil | emptySequence | primitive | foreign => exact .ok rfl hpage

/-- One set of active pairs, changed in place, is as good as one that is handed
down. -/
theorem copies_scribeTo (s : Store) (depth : Nat) :
    ScribeCopies (s.writeTo depth) (s.scribeTo depth) := by
  induction depth with
  | zero => intro active trail page v _; exact .error _
  | succ depth ih => exact copies_scribeValue ih

/-- On leaving any call the pairs are active that were active on entering
it. -/
theorem active_scribeTo {depth : Nat} {trail : List Value} {page page' : Page} {v : Value}
    (h : s.scribeTo depth trail page v = .ok page') : SameActive page'.active page.active := by
  have hcopies := copies_scribeTo s depth page.active trail page v fun _ => .rfl
  rw [h] at hcopies
  generalize s.writeTo depth page.active page.out v = x at hcopies
  cases hcopies with
  | ok _ same => exact same

/-- Both printers write the same text. -/
theorem scribe_eq_write (s : Store) (depth : Nat) (v : Value) :
    (s.scribe depth v).map Page.out = s.write depth v := by
  have hcopies : Copies ∅ (s.write depth v) (s.scribe depth v) :=
    copies_scribeTo s depth ∅ [] {} v fun _ => .rfl
  generalize s.write depth v = x at hcopies ⊢
  generalize s.scribe depth v = y at hcopies ⊢
  cases hcopies with
  | ok text => exact congrArg Except.ok text
  | error => rfl

/-- What is written, is written on a page, too. -/
theorem exists_scribe_eq {s : Store} {depth : Nat} {v : Value} {text : String}
    (h : s.write depth v = .ok text) : ∃ page, s.scribe depth v = .ok page ∧ page.out = text := by
  have hcopy := s.scribe_eq_write depth v
  rw [h] at hcopy
  cases hpage : s.scribe depth v with
  | error f =>
      rw [hpage] at hcopy
      cases hcopy
  | ok page =>
      rw [hpage] at hcopy
      exact ⟨page, rfl, Except.ok.inj hcopy⟩

end Store

end MiniScheme
