import MiniScheme.Proofs.Comparing
import MiniScheme.Proofs.Scribing

/-!
# `MiniScheme.Proofs.CycleMarks`: a mark for every cycle, and for nothing else

The printer marks a pair that it meets while the pair is active. Active are
exactly the pairs around the current place (`Store.Around`): those that a
trail of links leads through from the value that is written
(`Store.Trail`). So a mark closes a cycle (`Mark.Closes`). Shared parts
are not around each other, and are written in full at every place.

For the converse, `grows_scribeTo` says what a text is in which no mark was
made: the plain text (`Outline.written`) of a finite tree that the value unfolds
to (`Store.Outlines`). A value that leads to a cycle unfolds to no finite tree,
so its text has a mark.

`write_marks_cycles` puts this together with the bounds on nesting in
`MiniScheme.Proofs.Comparing`, which say that there is a text.
-/

set_option autoImplicit false

namespace MiniScheme

/-! ### Finite trees -/

/-- A value as a finite tree, with shared parts at every place. -/
inductive Outline where
  | nil
  /-- A value without parts, with its text. -/
  | leaf (text : String)
  | pair (car cdr : Outline)
  | vector (items : List Outline)

namespace Outline

mutual

/-- The text of a tree by itself. -/
def written : Outline → String
  | nil => "()"
  | leaf t => t
  | pair car cdr => "(" ++ written car ++ writtenBehind cdr
  | vector items => "#(" ++ writtenItems items ++ ")"

/-- The text of a tree behind an element of a list, where a pair goes on with
the list. -/
def writtenBehind : Outline → String
  | nil => ")"
  | leaf t => " . " ++ t ++ ")"
  | pair car cdr => " " ++ written car ++ writtenBehind cdr
  | vector items => " . " ++ ("#(" ++ writtenItems items ++ ")") ++ ")"

/-- The texts of elements with a blank between any two. -/
def writtenItems : List Outline → String
  | [] => ""
  | [t] => written t
  | t :: u :: ts => written t ++ " " ++ writtenItems (u :: ts)

end

end Outline

namespace Store

/-- The value, followed through pairs and vectors, is the finite tree. -/
inductive Outlines (s : Store) : Value → Outline → Prop
  | nil : Outlines s .nil .nil
  | leaf {v : Value} {t : String} (full : v ≠ .nil) (text : s.leafText? v = some t) :
      Outlines s v (.leaf t)
  | pair {r : Ref} {c : Cell} {car cdr : Outline} (cell : s.cells[r]? = some c)
      (first : Outlines s c.car car) (rest : Outlines s c.cdr cdr) :
      Outlines s (.pair r) (.pair car cdr)
  | vector {r : Ref} {ts : List Outline} (same : (s.elements r).length = ts.length)
      (each : ∀ i (h : i < (s.elements r).length) (k : i < ts.length),
        Outlines s ((s.elements r).get ⟨i, h⟩) (ts.get ⟨i, k⟩)) :
      Outlines s (.vector r) (.vector ts)

namespace Outlines

variable {s : Store} {v : Value} {t u : Outline}

/-- A value unfolds to one tree at most. -/
theorem unique (ht : s.Outlines v t) (hu : s.Outlines v u) : t = u := by
  induction ht generalizing u with
  | nil =>
      cases hu with
      | nil => rfl
      | leaf full => exact absurd rfl full
  | leaf full text =>
      cases hu with
      | nil => exact absurd rfl full
      | leaf _ text' => rw [Option.some.inj (text.symm.trans text')]
      | pair | vector => cases text
  | pair cell _ _ ihcar ihcdr =>
      cases hu with
      | leaf _ text => cases text
      | pair cell' hcar hcdr =>
          obtain rfl := Option.some.inj (cell.symm.trans cell')
          rw [ihcar hcar, ihcdr hcdr]
  | vector same _ ih =>
      cases hu with
      | leaf _ text => cases text
      | vector same' each' =>
          congr 1
          refine List.ext_get (same.symm.trans same') fun i h k => ?_
          exact ih i (same ▸ h) h (each' i (same ▸ h) k)

/-- Links lead away from such a value only finitely often. -/
theorem acc (h : s.Outlines v t) : Acc (fun v' v => s.Link v v') v := by
  induction h with
  | nil => exact .intro _ fun v' hlink => nomatch hlink
  | leaf _ text =>
      refine .intro _ fun v' hlink => ?_
      cases hlink with
      | car | cdr | element => cases text
  | pair cell _ _ ihcar ihcdr =>
      refine .intro _ fun v' hlink => ?_
      cases hlink with
      | car cell' =>
          obtain rfl := Option.some.inj (cell.symm.trans cell')
          exact ihcar
      | cdr cell' =>
          obtain rfl := Option.some.inj (cell.symm.trans cell')
          exact ihcdr
  | @vector r ts same _ ih =>
      refine .intro _ fun v' hlink => ?_
      cases hlink with
      | element vector mem =>
          have hmem : v' ∈ s.elements r := by simpa [elements, vector] using mem
          obtain ⟨⟨i, hi⟩, rfl⟩ := List.mem_iff_get.mp hmem
          exact ih i hi (same ▸ hi)

/-- It leads to no cycle. -/
theorem acyclic (h : s.Outlines v t) {w : Value} (hw : Relation.ReflTransGen s.Link v w) :
    ¬ Relation.TransGen s.Link w w := by
  refine irrefl_of_acc ?_
  induction hw with
  | refl => exact h.acc
  | tail _ hlink ih => exact ih.inv hlink

/-- Anything but a pair and `()` stands behind an element as a tail after a
dot. -/
theorem writtenBehind_eq (h : s.Outlines v t) (hnil : v ≠ .nil) (hpair : ∀ r, v ≠ .pair r) :
    t.writtenBehind = " . " ++ t.written ++ ")" := by
  cases h with
  | nil => exact absurd rfl hnil
  | leaf => simp only [Outline.writtenBehind, Outline.written]
  | pair => exact absurd rfl (hpair _)
  | vector => simp only [Outline.writtenBehind, Outline.written]

end Outlines

/-! ### Trails -/

/-- Links lead from the root through the values of the trail, the innermost
first, to the value. -/
inductive Trail (s : Store) (root : Value) : List Value → Value → Prop
  | root : Trail s root [] root
  | step {trail : List Value} {v w : Value} (before : Trail s root trail v) (link : s.Link v w) :
      Trail s root (v :: trail) w

namespace Trail

variable {s : Store} {root v w : Value} {trail : List Value}

theorem reflTransGen (h : s.Trail root trail v) : Relation.ReflTransGen s.Link root v := by
  induction h with
  | root => exact .refl
  | step _ link ih => exact ih.tail link

/-- From everything on the trail links lead on to the value. -/
theorem transGen_of_mem (h : s.Trail root trail v) (hw : w ∈ trail) :
    Relation.TransGen s.Link w v := by
  induction h with
  | root => exact absurd hw List.not_mem_nil
  | step _ link ih =>
      rcases List.mem_cons.mp hw with rfl | hw
      · exact .single link
      · exact (ih hw).tail link

end Trail

/-- The pairs around the current place are active, and no others. -/
def Around (page : Page) (trail : List Value) : Prop :=
  ∀ r, r ∈ page.active ↔ .pair r ∈ trail

theorem Around.enter {page : Page} {trail : List Value} (h : Around page trail) (r : Ref) :
    Around (page.enter r) (.pair r :: trail) := by
  intro q
  rw [Page.enter, Std.TreeSet.mem_insert, Std.LawfulEqCmp.compare_eq_iff_eq, h q, List.mem_cons,
    Value.pair.injEq, eq_comm]

theorem Around.congr {page page' : Page} {trail : List Value} (h : Around page trail)
    (hsame : SameActive page'.active page.active) : Around page' trail :=
  fun r => (hsame r).trans (h r)

end Store

/-- The marked pair is around the place of its mark, where links lead to from
the root. -/
def Mark.Closes (m : Mark) (s : Store) (root : Value) : Prop :=
  .pair m.cell ∈ m.trail ∧ s.Trail root m.trail (.pair m.cell)

namespace Store

/-! ### The marks of a text -/

/-- The new marks on the page all close cycles, and if there are none, then the
text is plain. -/
def Grows (s : Store) (root : Value) (page page' : Page) (plain : Prop) : Prop :=
  ∃ new, page'.marks = new ++ page.marks ∧ (∀ m ∈ new, m.Closes s root) ∧ (new = [] → plain)

namespace Grows

variable {s : Store} {root : Value} {page page₁ page' : Page} {plain plain' : Prop}

theorem of_marks_eq (hmarks : page'.marks = page.marks) (h : plain) :
    s.Grows root page page' plain :=
  ⟨[], hmarks, fun _ hm => absurd hm List.not_mem_nil, fun _ => h⟩

theorem seq (h : s.Grows root page page₁ plain) (k : s.Grows root page₁ page' plain') :
    s.Grows root page page' (plain ∧ plain') := by
  obtain ⟨new, hmarks, hclose, hplain⟩ := h
  obtain ⟨new', hmarks', hclose', hplain'⟩ := k
  refine ⟨new' ++ new, by rw [hmarks', hmarks, List.append_assoc], fun m hm => ?_, fun hnew => ?_⟩
  · rcases List.mem_append.mp hm with hm | hm
    · exact hclose' m hm
    · exact hclose m hm
  · obtain ⟨hnew', hnew⟩ := List.append_eq_nil_iff.mp hnew
    exact ⟨hplain hnew, hplain' hnew'⟩

theorem imp (h : s.Grows root page page' plain) (himp : plain → plain') :
    s.Grows root page page' plain' := by
  obtain ⟨new, hmarks, hclose, hplain⟩ := h
  exact ⟨new, hmarks, hclose, fun hnew => himp (hplain hnew)⟩

end Grows

/-- Some pair that can be reached from the value can reach itself. -/
def LeadsToCycle (s : Store) (v : Value) : Prop :=
  ∃ r, Relation.ReflTransGen s.Link v (.pair r) ∧
    Relation.TransGen s.Link (.pair r) (.pair r)

/-- What can be written under any limit that is high enough: pairs that are
there, no closures, no integers with too many digits, and no cycle without a
pair on it. -/
structure Writable (s : Store) (v : Value) : Prop where
  pairs : ∀ r, Relation.ReflTransGen s.Link v (.pair r) → r < s.cells.size
  closures : ∀ r, ¬ Relation.ReflTransGen s.Link v (.closure r)
  digits : ∀ n, Relation.ReflTransGen s.Link v (.number (.int n)) → n.natAbs < tooManyDigits
  cycles : ∀ w, Relation.ReflTransGen s.Link v w → ¬ Relation.TransGen s.PairFreeLink w w

/-- An element of a list or a vector is written with marks that close cycles, or
as the plain text of a tree. -/
def GrowsPlainly (s : Store) (root : Value) (element : Scribe) : Prop :=
  ∀ {trail : List Value} {page page' : Page} {v : Value}, s.Trail root trail v →
    Around page trail → element trail page v = .ok page' →
    SameActive page'.active page.active ∧
      s.Grows root page page' (∃ t, s.Outlines v t ∧ page'.out = page.out ++ t.written)

/-- What a writable value leads to is writable. -/
theorem Writable.of_reflTransGen {s : Store} {v w : Value} (h : s.Writable v)
    (hvw : Relation.ReflTransGen s.Link v w) : s.Writable w where
  pairs r hr := h.pairs r (hvw.trans hr)
  closures r hr := h.closures r (hvw.trans hr)
  digits n hn := h.digits n (hvw.trans hn)
  cycles u hu := h.cycles u (hvw.trans hu)

section Scribing

variable {s : Store} {root : Value} {element : Scribe}

/-- A pair that is there and not to be written is around its place. -/
theorem Writable.mem_trail (h : s.Writable root) {page : Page} {trail : List Value} {r : Ref}
    (htrail : s.Trail root trail (.pair r)) (haround : Around page trail)
    (hr : s.inactive? page.active (.pair r) = none) : .pair r ∈ trail := by
  have hlt := h.pairs r htrail.reflTransGen
  by_contra hnot
  have hinactive := inactive?_eq_some.mpr
    ⟨rfl, mt (haround r).mp hnot, Array.getElem?_eq_getElem hlt⟩
  cases hinactive.symm.trans hr

/-- The first field of a pair and then the second one are written with the pair
on their trails, so the outlines of both make up the one of the pair. -/
theorem GrowsPlainly.fields (he : s.GrowsPlainly root element) {trail : List Value}
    {page page₁ page' : Page} {r : Ref} {c : Cell} (hcell : s.cells[r]? = some c)
    (htrail : s.Trail root trail (.pair r)) (haround : Around page trail)
    (hfirst : element (.pair r :: trail) (page.enter r) c.car = .ok page₁)
    (hlater : s.Trail root (.pair r :: trail) c.cdr → Around page₁ (.pair r :: trail) →
      s.Grows root page₁ page'
        (∃ cdr, s.Outlines c.cdr cdr ∧ page'.out = page₁.out ++ cdr.writtenBehind)) :
    s.Grows root page page' (∃ car cdr, s.Outlines (.pair r) (.pair car cdr) ∧
      page'.out = page.out ++ car.written ++ cdr.writtenBehind) := by
  have henter : Around (page.enter r) (.pair r :: trail) := .enter haround r
  obtain ⟨hsame, hcar⟩ := he (htrail.step (.car hcell)) henter hfirst
  have hcdr := hlater (htrail.step (.cdr hcell)) (henter.congr hsame)
  refine (hcar.seq hcdr).imp ?_
  rintro ⟨⟨car, hcar, hout₁⟩, cdr, hcdr, hout⟩
  exact ⟨car, cdr, .pair hcell hcar hcdr, by rw [hout, hout₁, Page.enter]⟩

/-- The rest of a list is written with marks that close cycles, or as the plain
text of a tree behind an element. -/
theorem grows_scribeRest (h : s.Writable root) (he : s.GrowsPlainly root element) (fuel : Nat) :
    ∀ {chain : List Ref} {trail : List Value} {page page' : Page} {rest : Value},
      s.Trail root trail rest → Around page trail →
      s.scribeRest element fuel chain trail page rest = .ok page' →
      s.Grows root page page'
        (∃ t, s.Outlines rest t ∧ page'.out = page.out ++ t.writtenBehind) := by
  induction fuel with
  | zero => intro chain trail page page' rest _ _ hwrite; cases hwrite
  | succ fuel ih =>
      intro chain trail page page' rest htrail haround hwrite
      rw [scribeRest] at hwrite
      cases hrest : s.inactive? page.active rest with
      | some found =>
          obtain ⟨r, c⟩ := found
          obtain ⟨rfl, -, hcell⟩ := inactive?_eq_some.mp hrest
          rw [hrest] at hwrite
          obtain ⟨page₁, hfirst, hlater⟩ := exists_of_bind_eq_ok hwrite
          have haround' : Around (page.push ' ') trail := haround
          have hgrows := he.fields hcell htrail haround' hfirst fun htrail haround =>
            ih htrail haround hlater
          refine hgrows.imp ?_
          rintro ⟨car, cdr, ht, hout⟩
          refine ⟨.pair car cdr, ht, ?_⟩
          rw [hout, Outline.writtenBehind]
          exact String.toList_inj.mp (by simp [Page.push])
      | none =>
          rw [hrest] at hwrite
          dsimp only at hwrite
          by_cases hnil : rest = .nil
          · rw [if_pos hnil] at hwrite
            cases hwrite
            subst hnil
            refine .of_marks_eq rfl ⟨.nil, .nil, ?_⟩
            rw [Outline.writtenBehind]
            exact String.toList_inj.mp (by simp [Page.leave, Page.push])
          · rw [if_neg hnil] at hwrite
            obtain ⟨page₁, hlast, hend⟩ := exists_of_bind_eq_ok hwrite
            cases hend
            have haround' : Around (page.print " . ") trail := haround
            obtain ⟨-, hgrows⟩ := he htrail haround' hlast
            refine hgrows.imp ?_
            rintro ⟨t, ht, hout⟩
            refine ⟨t, ht, ?_⟩
            -- A pair that comes back here would close a cycle, so it is no tree.
            have hpair : ∀ r, rest ≠ .pair r := by
              rintro r rfl
              exact ht.acyclic .refl (htrail.transGen_of_mem (h.mem_trail htrail haround hrest))
            rw [ht.writtenBehind_eq hnil hpair, Page.leave, Page.push, hout]
            exact String.toList_inj.mp (by simp [Page.print])

/-- Elements are written with marks that close cycles, or as plain texts of
trees. -/
theorem grows_scribeItems (he : s.GrowsPlainly root element) {trail : List Value}
    (items : List Value) :
    ∀ {page page' : Page}, (∀ v ∈ items, s.Trail root trail v) → Around page trail →
      scribeItems element trail page items = .ok page' →
      s.Grows root page page' (∃ ts, List.Forall₂ s.Outlines items ts ∧
        page'.out = page.out ++ Outline.writtenItems ts) := by
  induction items with
  | nil =>
      intro page page' _ _ hwrite
      cases hwrite
      exact .of_marks_eq rfl ⟨[], .nil, by rw [Outline.writtenItems, String.append_empty]⟩
  | cons v items ih =>
      intro page page' htrails haround hwrite
      have hv := htrails v List.mem_cons_self
      cases items with
      | nil =>
          obtain ⟨-, hlast⟩ := he hv haround hwrite
          refine hlast.imp ?_
          rintro ⟨t, ht, hout⟩
          exact ⟨[t], .cons ht .nil, by rw [hout, Outline.writtenItems]⟩
      | cons w items =>
          obtain ⟨page₁, hfirst, hlater⟩ := exists_of_bind_eq_ok hwrite
          obtain ⟨hsame, hfirst⟩ := he hv haround hfirst
          have haround₁ : Around (page₁.push ' ') trail := haround.congr hsame
          have hrest := ih (fun u hu => htrails u (List.mem_cons_of_mem v hu)) haround₁ hlater
          refine (hfirst.seq hrest).imp ?_
          rintro ⟨⟨t, ht, hout₁⟩, ts, hts, hout⟩
          refine ⟨t :: ts, .cons ht hts, ?_⟩
          cases hts with
          | cons hu hus =>
              rw [hout, Page.push, hout₁, Outline.writtenItems]
              exact String.toList_inj.mp (by simp)

theorem grows_scribeValue (h : s.Writable root) (he : s.GrowsPlainly root element)
    {trail : List Value} {page page' : Page} {v : Value} (htrail : s.Trail root trail v)
    (haround : Around page trail) (hwrite : s.scribeValue element trail page v = .ok page') :
    s.Grows root page page' (∃ t, s.Outlines v t ∧ page'.out = page.out ++ t.written) := by
  have hleaf {u : Value} {t : String} (hu : u ≠ .nil) (ht : s.leafText? u = some t) :
      s.Grows root page (page.print t)
        (∃ o, s.Outlines u o ∧ (page.print t).out = page.out ++ o.written) :=
    .of_marks_eq rfl ⟨.leaf t, .leaf hu ht, by rw [Outline.written]; rfl⟩
  cases v with
  | pair r =>
      rw [scribeValue] at hwrite
      cases hr : s.inactive? page.active (.pair r) with
      | none =>
          rw [hr] at hwrite
          cases hwrite
          -- The only mark that is made at once is the one of this pair.
          refine ⟨[⟨trail, r⟩], rfl, fun m hm => ?_, fun hnew => by cases hnew⟩
          obtain rfl := List.mem_singleton.mp hm
          exact ⟨h.mem_trail htrail haround hr, htrail⟩
      | some found =>
          obtain ⟨q, c⟩ := found
          obtain ⟨hq, -, hcell⟩ := inactive?_eq_some.mp hr
          cases hq
          rw [hr] at hwrite
          obtain ⟨page₁, hfirst, hlater⟩ := exists_of_bind_eq_ok hwrite
          have haround' : Around (page.push '(') trail := haround
          have hgrows := he.fields hcell htrail haround' hfirst fun htrail haround =>
            grows_scribeRest h he _ htrail haround hlater
          refine hgrows.imp ?_
          rintro ⟨car, cdr, ht, hout⟩
          refine ⟨.pair car cdr, ht, ?_⟩
          rw [hout, Outline.written]
          exact String.toList_inj.mp (by simp [Page.push])
  | vector r =>
      obtain ⟨page₁, hitems, hend⟩ := exists_of_bind_eq_ok hwrite
      cases hend
      -- A vector is on the trail of its elements, but no pair.
      have haround' : Around (page.print "#(") (.vector r :: trail) := by
        intro q
        rw [List.mem_cons, or_iff_right (by rintro ⟨⟩)]
        exact haround q
      have hgrows := grows_scribeItems he (s.elements r)
        (fun v hv => htrail.step (link_of_mem_elements hv)) haround' hitems
      refine hgrows.imp ?_
      rintro ⟨ts, hts, hout⟩
      obtain ⟨hlength, heach⟩ := List.forall₂_iff_get.mp hts
      refine ⟨.vector ts, .vector hlength heach, ?_⟩
      rw [Page.push, hout, Outline.written]
      exact String.toList_inj.mp (by simp [Page.print])
  | closure r => exact absurd htrail.reflTransGen (h.closures r)
  | nil =>
      cases hwrite
      exact .of_marks_eq rfl ⟨.nil, .nil, by rw [Outline.written]; rfl⟩
  | number n =>
      simp only [scribeValue] at hwrite
      cases ht : s.leafText? (.number n) with
      | none =>
          rw [ht] at hwrite
          cases hwrite
      | some t =>
          rw [ht] at hwrite
          cases hwrite
          exact hleaf (by rintro ⟨⟩) ht
  | text | symbol | boolean | emptySequence | primitive | foreign =>
      cases hwrite
      exact hleaf (by rintro ⟨⟩) rfl

/-- Every mark closes a cycle, and a text without marks is the plain text of a
tree. -/
theorem grows_scribeTo (h : s.Writable root) (depth : Nat) :
    s.GrowsPlainly root (s.scribeTo depth) := by
  induction depth with
  | zero => intro trail page page' v _ _ hwrite; cases hwrite
  | succ depth ih =>
      intro trail page page' v htrail haround hwrite
      exact ⟨active_scribeTo hwrite, grows_scribeValue h ih htrail haround hwrite⟩

/-- All marks on a page of its own close cycles, and without marks the page has
the plain text of a tree. -/
theorem Writable.marks_scribe (h : s.Writable root) {depth : Nat} {page : Page}
    (hpage : s.scribe depth root = .ok page) :
    (∀ m ∈ page.marks, m.Closes s root) ∧
      (page.marks = [] → ∃ t, s.Outlines root t ∧ page.out = t.written) := by
  have haround : Around {} [] := fun r => by simp
  obtain ⟨-, new, hmarks, hclose, hplain⟩ := grows_scribeTo h depth .root haround hpage
  rw [List.append_nil] at hmarks
  subst hmarks
  refine ⟨hclose, fun hnew => ?_⟩
  obtain ⟨t, ht, hout⟩ := hplain hnew
  exact ⟨t, ht, hout.trans String.empty_append⟩

/-- There is a mark exactly if there is a cycle. -/
theorem Writable.marks_ne_nil_iff (h : s.Writable root) {depth : Nat} {page : Page}
    (hpage : s.scribe depth root = .ok page) : page.marks ≠ [] ↔ s.LeadsToCycle root := by
  obtain ⟨hclose, hplain⟩ := h.marks_scribe hpage
  constructor
  · intro hne
    obtain ⟨m, hm⟩ := List.exists_mem_of_ne_nil _ hne
    obtain ⟨hmem, htrail⟩ := hclose m hm
    exact ⟨m.cell, htrail.reflTransGen, htrail.transGen_of_mem hmem⟩
  · rintro ⟨r, hreach, hcycle⟩ hnil
    obtain ⟨t, ht, -⟩ := hplain hnil
    exact ht.acyclic hreach hcycle

end Scribing

/-! ### A text for every writable value -/

section Digits

variable {s : Store} {root : Value} {writer : Writer}

/-- No integer that can be reached has too many digits for the writer. -/
def WithinDigits (s : Store) (root : Value) (writer : Writer) : Prop :=
  ∀ (active : Active) (out : String) (v : Value), Relation.ReflTransGen s.Link root v →
    Avoids .tooManyDigits (writer active out v)

theorem withinDigits_writeRest (hw : s.WithinDigits root writer) (fuel : Nat) :
    s.WithinDigits root (s.writeRest writer fuel) := by
  induction fuel with
  | zero => rintro active out rest _ ⟨⟩
  | succ fuel ih =>
      intro active out rest hrest
      rw [writeRest]
      cases hfound : s.inactive? active rest with
      | some found =>
          obtain ⟨r, c⟩ := found
          obtain ⟨rfl, -, hcell⟩ := inactive?_eq_some.mp hfound
          exact (hw _ _ _ (hrest.tail (.car hcell))).bind fun out =>
            ih _ _ _ (hrest.tail (.cdr hcell))
      | none =>
          dsimp only
          split
          · exact .ok _
          · exact (hw _ _ _ hrest).bind fun out => .ok _

theorem avoids_writeItems (hw : s.WithinDigits root writer) (active : Active)
    (items : List Value) : ∀ out : String, (∀ v ∈ items, Relation.ReflTransGen s.Link root v) →
      Avoids .tooManyDigits (writeItems writer active out items) := by
  induction items with
  | nil => intro out _; exact .ok out
  | cons v items ih =>
      intro out hitems
      have hv := hitems v List.mem_cons_self
      cases items with
      | nil => exact hw _ _ _ hv
      | cons w items =>
          exact (hw _ _ _ hv).bind fun out =>
            ih _ fun u hu => hitems u (List.mem_cons_of_mem v hu)

theorem withinDigits_writeValue (h : s.Writable root) (hw : s.WithinDigits root writer) :
    s.WithinDigits root (s.writeValue writer) := by
  intro active out v hv
  cases v with
  | number n =>
      have hshort : ∃ t, n.text? = some t := by
        cases n with
        | int n => exact ⟨toString n, by rw [Number.text?, if_pos (h.digits n hv)]⟩
        | real x => exact ⟨_, rfl⟩
      obtain ⟨t, ht⟩ := hshort
      simp only [writeValue, ht]
      exact .ok _
  | pair r =>
      rw [writeValue]
      cases hr : s.inactive? active (.pair r) with
      | none => exact .ok _
      | some found =>
          obtain ⟨q, c⟩ := found
          obtain ⟨hq, -, hcell⟩ := inactive?_eq_some.mp hr
          cases hq
          exact (hw _ _ _ (hv.tail (.car hcell))).bind fun out =>
            withinDigits_writeRest hw _ _ _ _ (hv.tail (.cdr hcell))
  | vector r =>
      exact (avoids_writeItems hw _ _ _ fun v hmem => hv.tail (link_of_mem_elements hmem)).bind
        fun out => .ok _
  | closure r => exact absurd hv (h.closures r)
  | text | symbol | boolean | nil | emptySequence | primitive | foreign => exact .ok _

theorem withinDigits_writeTo (h : s.Writable root) (depth : Nat) :
    s.WithinDigits root (s.writeTo depth) := by
  induction depth with
  | zero => rintro active out v _ ⟨⟩
  | succ depth ih => exact withinDigits_writeValue h ih

end Digits

theorem Writable.surveyed {s : Store} {root : Value} (h : s.Writable root) :
    s.Surveyed (Relation.ReflTransGen s.Link root) where
  link hv hlink := hv.tail hlink
  vectors hv := by
    refine acc_of_acyclic (fun _ _ h => h.1) fun w hw => h.cycles w (hv.trans ?_)
    exact Relation.ReflTransGen.mono (fun _ _ h => h.1) _ _ hw
  formals r _ hr := absurd hr (h.closures r)

/-- A writable value has a text, under any limit that is high enough. -/
theorem Writable.exists_write_eq {s : Store} {root : Value} (h : s.Writable root) :
    ∃ n text, ∀ depth ≥ n, s.write depth root = .ok text := by
  obtain ⟨n, result, hresult, ⟨text, rfl⟩ | rfl⟩ := h.surveyed.exists_write_eq .refl
  · exact ⟨n, text, hresult⟩
  · exact absurd (hresult n (Nat.le_refl n)) (withinDigits_writeTo h n ∅ "" root .refl)

end Store

/-- **The printer marks the cycles, and nothing else.** In a store with any
sharing and any cycles, for a writable value, which leads to no closure, to no
integer with too many digits and to no cycle of vectors alone:

* there is a text, which is written under any limit that is high enough, and
  under any other limit unless the value is nested too deeply for it;
* the text has a mark exactly if a pair that can be reached can reach itself;
* if there is no such pair, then the value unfolds to a finite tree, and the
  text is the plain text of that tree;
* every mark stands for a pair that is around its place.

The marks are recorded by a scribe with one set of active pairs, who writes what
the printer writes and, whatever is written, leaves the active pairs as they
were. -/
theorem write_marks_cycles (s : Store) (v : Value) (h : s.Writable v) :
    (∃ text,
      (∃ n, ∀ depth ≥ n, s.write depth v = .ok text ∧ ∃ page, s.scribe depth v = .ok page) ∧
      (∀ depth, s.write depth v = .ok text ∨ s.write depth v = .error .tooDeep) ∧
      (∀ depth page, s.scribe depth v = .ok page →
        (page.marks ≠ [] ↔ s.LeadsToCycle v) ∧ ∀ m ∈ page.marks, m.Closes s v) ∧
      (¬ s.LeadsToCycle v → ∃ t, (∀ u, s.Outlines v u ↔ u = t) ∧ text = t.written)) ∧
    (∀ depth u, (s.scribe depth u).map Page.out = s.write depth u) ∧
    ∀ depth trail page u page', s.scribeTo depth trail page u = .ok page' →
      ∀ r, r ∈ page'.active ↔ r ∈ page.active := by
  obtain ⟨n, text, hn⟩ := h.exists_write_eq
  refine ⟨⟨text, ⟨n, fun depth hd => ⟨hn depth hd, ?_⟩⟩, fun depth => ?_,
    fun depth page hpage => ?_, fun hacyclic => ?_⟩, s.scribe_eq_write,
    fun _ _ _ _ _ hwrite => Store.active_scribeTo hwrite⟩
  · exact (Store.exists_scribe_eq (hn depth hd)).imp fun _ => And.left
  · -- Any limit is compared with one that is high enough.
    rcases (Store.settles_write (.refl s) (Nat.le_max_left depth n) v).same with htooDeep | hsame
    · exact .inr htooDeep
    · exact .inl (hsame.symm.trans (hn _ (Nat.le_max_right depth n)))
  · exact ⟨h.marks_ne_nil_iff hpage, (h.marks_scribe hpage).1⟩
  · obtain ⟨page, hpage, rfl⟩ := Store.exists_scribe_eq (hn n (Nat.le_refl n))
    have hnil : page.marks = [] := by
      by_contra hne
      exact hacyclic ((h.marks_ne_nil_iff hpage).mp hne)
    obtain ⟨t, ht, hout⟩ := (h.marks_scribe hpage).2 hnil
    refine ⟨t, fun u => ⟨fun hu => hu.unique ht, ?_⟩, hout⟩
    rintro rfl
    exact ht

/-- A list whose first element is a vector that holds the list, and whose rest
has the same list twice. -/
def ringStore : Store where
  cells := #[⟨.vector 0, .pair 1⟩, ⟨.pair 2, .pair 2⟩, ⟨.number (.int 7), .nil⟩]
  vectors := #[[.pair 0, .symbol "a"]]

/-- The list can be written: its cycle passes through a pair. -/
theorem writable_ringStore : ringStore.Writable (.pair 0) := by
  have hreach : ∀ {w}, Relation.ReflTransGen ringStore.Link (.pair 0) w →
      w ∈ [.pair 0, .pair 1, .pair 2, .vector 0, .symbol "a", .number (.int 7), .nil] := by
    intro w hw
    induction hw with
    | refl => decide
    | @tail _ u _ hlink ih =>
        cases hlink with
        | @car r c cell =>
            obtain rfl | rfl | rfl : r = 0 ∨ r = 1 ∨ r = 2 := by simpa using ih
            all_goals cases cell; decide
        | @cdr r c cell =>
            obtain rfl | rfl | rfl : r = 0 ∨ r = 1 ∨ r = 2 := by simpa using ih
            all_goals cases cell; decide
        | @element r items _ vector mem =>
            obtain rfl : r = 0 := by simpa using ih
            cases vector
            replace mem : u ∈ [.pair 0, .symbol "a"] := mem
            obtain rfl | rfl : u = .pair 0 ∨ u = .symbol "a" := by simpa using mem
            all_goals decide
  refine ⟨fun r hr => ?_, fun r hr => ?_, fun n hn => ?_, fun w hw hcycle => ?_⟩
  · obtain rfl | rfl | rfl : r = 0 ∨ r = 1 ∨ r = 2 := by simpa using hreach hr
    all_goals decide
  · simpa using hreach hr
  · obtain rfl : n = 7 := by simpa using hreach hn
    decide +kernel
  · obtain ⟨u, ⟨hlink, hfree⟩, hrest⟩ := Relation.TransGen.head'_iff.mp hcycle
    cases hlink with
    | car | cdr => exact hfree _ rfl
    | @element r items u vector mem =>
        obtain rfl : r = 0 := by simpa using hreach hw
        cases vector
        replace mem : u ∈ [.pair 0, .symbol "a"] := mem
        -- Neither element leads on through vectors alone.
        obtain rfl | rfl : u = .pair 0 ∨ u = .symbol "a" := by simpa using mem
        · obtain hend | ⟨_, ⟨-, hfree⟩, -⟩ := hrest.cases_head
          · cases hend
          · exact hfree 0 rfl
        · obtain hend | ⟨_, ⟨hlink, -⟩, -⟩ := hrest.cases_head
          · cases hend
          · cases hlink

/-- The theorem at that store. The list has a mark in its vector; its rest has
none, and is written as a tree. -/
theorem write_marks_cycles_ringStore :
    ringStore.Writable (.pair 0) ∧ ringStore.Writable (.pair 1) ∧
    ringStore.write 4 (.pair 0) = .ok "(#(... a) (7) 7)" ∧
    (∃ page, ringStore.scribe 4 (.pair 0) = .ok page ∧
      page.marks = [⟨[.vector 0, .pair 0], 0⟩] ∧
      Relation.TransGen ringStore.Link (.pair 0) (.pair 0)) ∧
    ∃ n, ∀ depth ≥ n, ringStore.write depth (.pair 1) = .ok "((7) 7)" := by
  have hlink : ringStore.Link (.pair 0) (.pair 1) :=
    Store.Link.cdr (r := 0) (c := ⟨.vector 0, .pair 1⟩) rfl
  have hrest : ringStore.Writable (.pair 1) := writable_ringStore.of_reflTransGen (.single hlink)
  obtain ⟨⟨text, -, -, hscribe, -⟩, -⟩ :=
    write_marks_cycles ringStore (.pair 0) writable_ringStore
  obtain ⟨⟨text', ⟨n, hn⟩, hall, -⟩, -⟩ := write_marks_cycles ringStore (.pair 1) hrest
  refine ⟨writable_ringStore, hrest, by decide +kernel, ?_, n, fun depth hd => ?_⟩
  · have hmarks : (ringStore.scribe 4 (.pair 0)).map Page.marks
        = .ok [⟨[.vector 0, .pair 0], 0⟩] := by decide +kernel
    cases hpage : ringStore.scribe 4 (.pair 0) with
    | error f =>
        rw [hpage] at hmarks
        cases hmarks
    | ok page =>
        rw [hpage] at hmarks
        have hpageMarks : page.marks = [⟨[.vector 0, .pair 0], 0⟩] := Except.ok.inj hmarks
        obtain ⟨hmem, htrail⟩ := (hscribe 4 page hpage).2 ⟨[.vector 0, .pair 0], 0⟩
          (hpageMarks ▸ List.mem_singleton_self _)
        exact ⟨page, rfl, hpageMarks, htrail.transGen_of_mem hmem⟩
  · have htext : ringStore.write 4 (.pair 1) = .ok "((7) 7)" := by decide +kernel
    rw [(hn depth hd).1]
    rcases hall 4 with hok | htooDeep
    · exact hok.symm.trans htext
    · cases htooDeep.symm.trans htext

end MiniScheme
