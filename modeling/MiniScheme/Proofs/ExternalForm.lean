import MiniScheme.Proofs.Unfolding
import MiniScheme.Store.Printer
import MiniScheme.Token.Lexer

/-!
# `MiniScheme.Proofs.ExternalForm`: the text of a finite tree

`Store.write` follows references, keeps the set of pairs that it is inside
of, and counts its steps. On a value that unfolds to a datum none of that
shows: the text is `Datum.written`, a plain recursion over the tree, and
`write_eq_written` says so.

A datum stands either by itself or behind an element of a list, where a
pair goes on with the list, `()` ends it, and anything else is a tail
after a dot. `Datum.Place` tells the two apart, for the text here as for
the tokens in `MiniScheme.Proofs.WrittenTokens`.

`Datum.Readable` singles out the data that have a text which reads back:
no reals, integers within the digit limit, and symbols whose name a reader
takes for a symbol. `Datum.nesting` counts the levels that the text needs.

All that printing takes is `Datum.HasText`. With levels enough, a value that
unfolds to such a datum can be written (`write_of_hasText`) and named in a
message (`exists_display`).
-/

set_option autoImplicit false

namespace MiniScheme

namespace Datum

/-- Where a datum stands: by itself, or behind an element of a list. -/
inductive Place where
  | alone
  | behind
deriving DecidableEq

/-- The text of something other than a list: behind an element it is a
tail, with a dot before it and the end of the list after it. -/
def Place.dotted (cs : List Char) : Place → List Char
  | alone => cs
  | behind => ' ' :: '.' :: ' ' :: (cs ++ [')'])

/-- A character of a string, escaped where the reader needs it. -/
def escapedChar (c : Char) : List Char := if c = '\\' ∨ c = '"' then ['\\', c] else [c]

/-- The external form of a string. -/
def writtenText (t : String) : List Char := '"' :: (t.toList.flatMap escapedChar ++ ['"'])

mutual

/-- The external form of a datum. -/
def written : Place → Datum → List Char
  | p, .number n => p.dotted (n.text?.getD "").toList
  | p, .text t => p.dotted (writtenText t)
  | p, .symbol name => p.dotted name.toList
  | p, .boolean b => p.dotted (if b then ['#', 't'] else ['#', 'f'])
  | .alone, .nil => ['(', ')']
  | .behind, .nil => [')']
  | .alone, .pair car cdr => '(' :: (written .alone car ++ written .behind cdr)
  | .behind, .pair car cdr => ' ' :: (written .alone car ++ written .behind cdr)
  | p, .vector [] => p.dotted ['#', '(', ')']
  | p, .vector (d :: ds) => p.dotted ('#' :: '(' :: (written .alone d ++ writtenItems ds))

/-- The elements of a vector behind its first one, and its end. -/
def writtenItems : List Datum → List Char
  | [] => [')']
  | d :: ds => ' ' :: (written .alone d ++ writtenItems ds)

end

mutual

/-- The levels that a datum needs. What stands behind an element lies on
the level of its list. -/
def nesting : Place → Datum → Nat
  | .behind, .nil => 0
  | .alone, .pair car cdr => max (nesting .alone car) (nesting .behind cdr) + 1
  | .behind, .pair car cdr => max (nesting .alone car) (nesting .behind cdr)
  | _, .vector items => nestingItems items + 1
  | _, _ => 1

/-- The levels that the elements of a vector need. -/
def nestingItems : List Datum → Nat
  | [] => 0
  | d :: ds => max (nesting .alone d) (nestingItems ds)

end

/-- What is neither a list nor a vector, so its text is one piece. -/
def IsAtom : Datum → Prop
  | .number _ | .text _ | .symbol _ | .boolean _ => True
  | .nil | .pair _ _ | .vector _ => False

theorem IsAtom.written_behind {d : Datum} (h : d.IsAtom) :
    d.written .behind = Place.behind.dotted (d.written .alone) := by
  cases d with
  | number | text | symbol | boolean => simp [written, Place.dotted]
  | nil | pair | vector => cases h

theorem IsAtom.nesting_eq {d : Datum} (h : d.IsAtom) (p : Place) : d.nesting p = 1 := by
  cases d with
  | number | text | symbol | boolean => cases p <;> rfl
  | nil | pair | vector => cases h

/-- A name that stands for a symbol wherever it is written: one word, and
neither a dot nor a boolean nor a numeral. -/
structure IsSymbolName (name : String) : Prop where
  nonempty : name ≠ ""
  word : ∀ c ∈ name.toList, isWordChar c = true
  notDot : name ≠ "."
  notBoolean : name ∉ booleanWords
  notNumeral : Number.ofWord? name = none

/-- Data that have a text which reads back. -/
inductive Readable : Datum → Prop
  | int {n : Int} (short : n.natAbs < tooManyDigits) : Readable (.number (.int n))
  | text (t : String) : Readable (.text t)
  | symbol {name : String} (h : IsSymbolName name) : Readable (.symbol name)
  | boolean (b : Bool) : Readable (.boolean b)
  | nil : Readable .nil
  | pair {car cdr : Datum} (first : Readable car) (rest : Readable cdr) : Readable (.pair car cdr)
  | vector {items : List Datum} (each : ∀ d ∈ items, Readable d) : Readable (.vector items)

/-- Data that have a text, whether or not it reads back: all numbers in them
have one. -/
inductive HasText : Datum → Prop
  | number {n : Number} {t : String} (text : n.text? = some t) : HasText (.number n)
  | text (t : String) : HasText (.text t)
  | symbol (name : String) : HasText (.symbol name)
  | boolean (b : Bool) : HasText (.boolean b)
  | nil : HasText .nil
  | pair {car cdr : Datum} (first : HasText car) (rest : HasText cdr) : HasText (.pair car cdr)
  | vector {items : List Datum} (each : ∀ d ∈ items, HasText d) : HasText (.vector items)

theorem Readable.hasText {d : Datum} (h : Readable d) : HasText d := by
  induction h with
  | @int n short => exact .number (t := toString n) (by simp [Number.text?, short])
  | text t => exact .text t
  | symbol => exact .symbol _
  | boolean b => exact .boolean b
  | nil => exact .nil
  | pair _ _ ihcar ihcdr => exact .pair ihcar ihcdr
  | vector _ ih => exact .vector ih

/-- Every element of a vector needs at most as many levels as all. -/
theorem nesting_le_nestingItems {d : Datum} {ds : List Datum} (h : d ∈ ds) :
    d.nesting .alone ≤ nestingItems ds := by
  induction ds with
  | nil => exact absurd h List.not_mem_nil
  | cons e ds ih =>
      rcases List.mem_cons.mp h with rfl | h
      · exact Nat.le_max_left _ _
      · exact Nat.le_trans (ih h) (Nat.le_max_right _ _)

/-- A datum by itself needs at most one level more than behind an
element. -/
theorem nesting_alone_le (d : Datum) : d.nesting .alone ≤ d.nesting .behind + 1 := by
  cases d <;> simp [nesting]

/-- Every datum by itself needs a level. -/
theorem nesting_alone_pos (d : Datum) : 0 < d.nesting .alone := by
  cases d <;> simp [nesting]

end Datum

open Datum (Readable HasText)

/-! ### Strings -/

/-- A string is written between quotes with its characters escaped one by
one. -/
theorem toList_writtenString (t : String) : (writtenString t).toList = Datum.writtenText t := by
  -- The printer adds to a text; the statement is about any text so far.
  have hbody : ∀ (cs : List Char) (out : String),
      (cs.foldl (fun out c =>
        if c = '\\' ∨ c = '"' then (out.push '\\').push c else out.push c) out).toList
      = out.toList ++ cs.flatMap Datum.escapedChar := by
    intro cs
    induction cs with
    | nil => intro out; simp
    | cons c cs ih =>
        intro out
        rw [List.foldl_cons, ih, List.flatMap_cons, Datum.escapedChar]
        split <;> simp
  simp [writtenString, Datum.writtenText, hbody]

namespace Store

/-! ### Active pairs -/

/-- The active pairs all unfold to something larger than the datum. This
is what keeps the printer from meeting an active pair: the datum at hand
is a part of each of them. -/
def Inside (s : Store) (active : Active) (d : Datum) : Prop :=
  ∀ r ∈ active, ∃ e, s.Unfolds (.pair r) e ∧ sizeOf d < sizeOf e

namespace Inside

variable {s : Store} {active : Active} {d e : Datum}

/-- No pair is active at the start. -/
theorem empty (s : Store) (d : Datum) : s.Inside ∅ d := fun _ hr => by simp at hr

/-- What is inside a datum is inside all that is around it. -/
theorem part (h : s.Inside active d) (hle : sizeOf e ≤ sizeOf d) : s.Inside active e :=
  fun r hr => by
    obtain ⟨f, hf, hlt⟩ := h r hr
    exact ⟨f, hf, Nat.lt_of_le_of_lt hle hlt⟩

/-- A pair becomes active, and the printer goes on with a part of it. -/
theorem enter {r : Ref} (h : s.Inside active d) (hr : s.Unfolds (.pair r) d)
    (hlt : sizeOf e < sizeOf d) : s.Inside (active.insert r) e := by
  intro q hq
  rcases Std.TreeSet.mem_insert.mp hq with heq | hq
  · obtain rfl : r = q := by simpa using heq
    exact ⟨d, hr, hlt⟩
  · exact h.part (Nat.le_of_lt hlt) q hq

/-- A pair that is to be written is not active. -/
theorem inactive? {r : Ref} {c : Cell} (h : s.Inside active d) (hr : s.Unfolds (.pair r) d)
    (hc : s.cells[r]? = some c) : s.inactive? active (.pair r) = some (r, c) := by
  have hr' : r ∉ active := fun hmem => by
    obtain ⟨e, he, hlt⟩ := h r hmem
    rw [hr.unique he] at hlt
    exact Nat.lt_irrefl _ hlt
  simp [Store.inactive?, hr', hc]

end Inside

/-! ### Printing -/

/-- At `depth`, the value prints as the datum by itself. -/
def PrintsAs (s : Store) (depth : Nat) (v : Value) (d : Datum) : Prop :=
  ∀ active out, s.Inside active d →
    s.writeTo depth active out v = .ok (out ++ String.ofList (d.written .alone))

/-- With its elements at `depth`, the value prints as the rest of a list,
which is the datum. -/
def PrintsBehind (s : Store) (depth : Nat) (v : Value) (d : Datum) : Prop :=
  ∀ fuel active out, d.spineLength < fuel → s.Inside active d →
    s.writeRest (s.writeTo depth) fuel active out v
      = .ok (out ++ String.ofList (d.written .behind))

/-- Something that is neither a pair nor `()` prints behind an element as a
tail after a dot. -/
theorem PrintsAs.behind_of_atom {s : Store} {depth : Nat} {v : Value} {d : Datum}
    (h : s.PrintsAs depth v d) (hpair : ∀ r, v ≠ .pair r) (hnil : v ≠ .nil)
    (hdot : d.written .behind = Datum.Place.behind.dotted (d.written .alone)) :
    s.PrintsBehind depth v d := by
  intro fuel active out hfuel hin
  obtain ⟨fuel, rfl⟩ : ∃ n, fuel = n + 1 := ⟨fuel - 1, by omega⟩
  have hinactive : s.inactive? active v = none := by
    cases v with
    | pair r => exact absurd rfl (hpair r)
    | _ => rfl
  -- It is no pair to go on with and not the end, so a dot comes before it.
  rw [writeRest, hinactive]
  simp only [hnil, if_false]
  rw [h active (out ++ " . ") hin]
  refine congrArg Except.ok (String.toList_inj.mp ?_)
  simp [hdot, Datum.Place.dotted]

/-- The elements of a vector, of which there is at least one, and its
end. -/
theorem writeItems_eq {s : Store} {depth : Nat} {active : Active} {vs : List Value}
    {ds : List Datum} (h : List.Forall₂ (s.PrintsAs depth) vs ds) :
    ∀ {v d}, s.PrintsAs depth v d → (∀ e ∈ d :: ds, s.Inside active e) → ∀ out : String,
      (writeItems (s.writeTo depth) active out (v :: vs)).map (·.push ')')
        = .ok (out ++ String.ofList (d.written .alone ++ Datum.writtenItems ds)) := by
  induction h with
  | nil =>
      intro v d hv hin out
      rw [writeItems, hv active out (hin d List.mem_cons_self)]
      refine congrArg Except.ok (String.toList_inj.mp ?_)
      simp [Datum.writtenItems]
  | @cons w e vs ds hw _ ih =>
      intro v d hv hin out
      rw [writeItems, hv active out (hin d List.mem_cons_self)]
      · show (writeItems (s.writeTo depth) active _ (w :: vs)).map _ = _
        rw [ih hw fun f hf => hin f (List.mem_cons_of_mem d hf)]
        refine congrArg Except.ok (String.toList_inj.mp ?_)
        simp [Datum.writtenItems]
      · simp

/-- A vector prints as `#(`, its elements and `)`, if its elements print
one level further in. -/
theorem printsAs_vector {s : Store} {depth : Nat} {r : Ref} {vs : List Value} {ds : List Datum}
    (hr : s.vectors[r]? = some vs) (h : List.Forall₂ (s.PrintsAs depth) vs ds) :
    s.PrintsAs (depth + 1) (.vector r) (.vector ds) := by
  intro active out hin
  have hpart : ∀ d ∈ ds, s.Inside active d := fun d hd =>
    hin.part (by have := List.sizeOf_lt_of_mem hd; simp; omega)
  have hwrite : s.writeTo (depth + 1) active out (.vector r)
      = (writeItems (s.writeTo depth) active (out ++ "#(") vs).map (·.push ')') := by
    show (writeItems (s.writeTo depth) active (out ++ "#(") (s.vectors[r]?.getD [])).bind _ = _
    rw [hr]
    rfl
  rw [hwrite]
  cases h with
  | nil =>
      refine congrArg Except.ok (String.toList_inj.mp ?_)
      simp [Datum.written, Datum.Place.dotted]
  | cons hv hvs =>
      rw [writeItems_eq hvs hv hpart]
      refine congrArg Except.ok (String.toList_inj.mp ?_)
      simp [Datum.written, Datum.Place.dotted]

/-- A pair prints as an opening parenthesis, its first part, and the rest
of the list. -/
theorem printsAs_pair {s : Store} {depth : Nat} {r : Ref} {c : Cell} {car cdr : Datum}
    (hc : s.cells[r]? = some c) (hcar : s.Unfolds c.car car) (hcdr : s.Unfolds c.cdr cdr)
    (ihcar : s.PrintsAs depth c.car car) (ihcdr : s.PrintsBehind depth c.cdr cdr) :
    s.PrintsAs (depth + 1) (.pair r) (.pair car cdr) := by
  intro active out hin
  have hself : s.Unfolds (.pair r) (.pair car cdr) := .pair hc hcar hcdr
  have hsize : sizeOf (Datum.pair car cdr) = 1 + sizeOf car + sizeOf cdr :=
    Datum.pair.sizeOf_spec car cdr
  have hfuel : cdr.spineLength < s.cells.size + 1 := Nat.lt_succ_of_le hcdr.spineLength_le
  rw [writeTo]
  simp only [writeValue, hin.inactive? hself hc, ihcar _ _ (hin.enter hself (by omega))]
  show s.writeRest _ _ _ _ _ = _
  rw [ihcdr _ _ _ hfuel (hin.enter hself (by omega))]
  refine congrArg Except.ok (String.toList_inj.mp ?_)
  simp [Datum.written]

/-- A pair behind an element goes on with the list. -/
theorem printsBehind_pair {s : Store} {depth : Nat} {r : Ref} {c : Cell} {car cdr : Datum}
    (hc : s.cells[r]? = some c) (hcar : s.Unfolds c.car car) (hcdr : s.Unfolds c.cdr cdr)
    (ihcar : s.PrintsAs depth c.car car) (ihcdr : s.PrintsBehind depth c.cdr cdr) :
    s.PrintsBehind depth (.pair r) (.pair car cdr) := by
  intro fuel active out hfuel hin
  have hself : s.Unfolds (.pair r) (.pair car cdr) := .pair hc hcar hcdr
  have hsize : sizeOf (Datum.pair car cdr) = 1 + sizeOf car + sizeOf cdr :=
    Datum.pair.sizeOf_spec car cdr
  obtain ⟨fuel, rfl⟩ : ∃ n, fuel = n + 1 := ⟨fuel - 1, by omega⟩
  rw [writeRest, hin.inactive? hself hc]
  simp only [ihcar _ _ (hin.enter hself (by omega))]
  show s.writeRest _ _ _ _ _ = _
  rw [ihcdr _ _ _ (by simp only [Datum.spineLength] at hfuel; omega)
    (hin.enter hself (by omega))]
  refine congrArg Except.ok (String.toList_inj.mp ?_)
  simp [Datum.written]

/-- The value prints as the datum, by itself and behind an element, as soon
as there are levels enough. -/
def Prints (s : Store) (v : Value) (d : Datum) : Prop :=
  (∀ depth, d.nesting .alone ≤ depth → s.PrintsAs depth v d) ∧
  (∀ depth, d.nesting .behind ≤ depth → s.PrintsBehind depth v d)

/-- An atom that is written at once prints in both places. -/
theorem prints_of_atom {s : Store} {v : Value} {d : Datum} (h : s.Unfolds v d) (hd : d.IsAtom)
    (hwrite : ∀ depth active out,
      s.writeTo (depth + 1) active out v = .ok (out ++ String.ofList (d.written .alone))) :
    s.Prints v d := by
  have hvalue : (∀ r, v ≠ .pair r) ∧ v ≠ .nil := by
    cases h with
    | number | text | symbol | boolean => exact ⟨fun _ => Value.noConfusion, Value.noConfusion⟩
    | nil | pair | vector => cases hd
  have halone : ∀ depth, 1 ≤ depth → s.PrintsAs depth v d := by
    intro depth hdepth active out _
    obtain ⟨depth, rfl⟩ : ∃ n, depth = n + 1 := ⟨depth - 1, by omega⟩
    exact hwrite depth active out
  refine ⟨fun depth hdepth => halone depth ?_, fun depth hdepth => ?_⟩
  · rwa [hd.nesting_eq] at hdepth
  · rw [hd.nesting_eq] at hdepth
    exact (halone depth hdepth).behind_of_atom hvalue.1 hvalue.2 hd.written_behind

/-- `()` prints in both places. -/
theorem prints_nil (s : Store) : s.Prints .nil .nil := by
  refine ⟨fun depth hdepth active out _ => ?_, fun depth _ fuel active out hfuel _ => ?_⟩
  · have hpos := Datum.nil.nesting_alone_pos
    obtain ⟨depth, rfl⟩ : ∃ n, depth = n + 1 := ⟨depth - 1, by omega⟩
    rfl
  · obtain ⟨fuel, rfl⟩ : ∃ n, fuel = n + 1 := ⟨fuel - 1, by omega⟩
    refine congrArg Except.ok (String.toList_inj.mp ?_)
    simp [Datum.written]

/-- A value that unfolds to a datum with a text prints as that datum. Induction
over the datum; both places are proved together, since each is used for the
parts of the other. -/
theorem prints_of_hasText {s : Store} {d : Datum} (hd : HasText d) :
    ∀ {v : Value}, s.Unfolds v d → s.Prints v d := by
  induction hd with
  | number text =>
      rintro _ ⟨⟩
      refine prints_of_atom (.number _) trivial fun _ _ _ => ?_
      simp [writeTo, writeValue, Datum.written, Datum.Place.dotted, text]
  | text t =>
      rintro _ ⟨⟩
      refine prints_of_atom (.text _ t) trivial fun _ _ out => ?_
      refine congrArg Except.ok (String.toList_inj.mp ?_)
      simp [toList_writtenString, Datum.written, Datum.Place.dotted]
  | symbol name =>
      rintro _ ⟨⟩
      refine prints_of_atom (.symbol name) trivial fun _ _ _ => ?_
      simp [writeTo, writeValue, Datum.written, Datum.Place.dotted]
  | boolean b =>
      rintro _ ⟨⟩
      refine prints_of_atom (.boolean b) trivial fun _ _ _ => ?_
      cases b <;> rfl
  | nil =>
      rintro _ ⟨⟩
      exact prints_nil s
  | pair _ _ ihcar ihcdr =>
      rintro _ (_ | _ | _ | _ | _ | ⟨cell, hcar, hcdr⟩ | _)
      refine ⟨fun depth hdepth => ?_, fun depth hdepth => ?_⟩
      · rw [Datum.nesting] at hdepth
        obtain ⟨depth, rfl⟩ : ∃ n, depth = n + 1 := ⟨depth - 1, by omega⟩
        exact printsAs_pair cell hcar hcdr ((ihcar hcar).1 depth (by omega))
          ((ihcdr hcdr).2 depth (by omega))
      · rw [Datum.nesting] at hdepth
        exact printsBehind_pair cell hcar hcdr ((ihcar hcar).1 depth (by omega))
          ((ihcdr hcdr).2 depth (by omega))
  | @vector ds _ ih =>
      rintro _ (_ | _ | _ | _ | _ | _ | ⟨hitems, hlen, heach⟩)
      rename_i r vs
      have hvector : ∀ depth, Datum.nestingItems ds + 1 ≤ depth →
          s.PrintsAs depth (.vector r) (.vector ds) := by
        intro depth hdepth
        obtain ⟨depth, rfl⟩ : ∃ n, depth = n + 1 := ⟨depth - 1, by omega⟩
        refine printsAs_vector hitems (List.forall₂_iff_get.mpr ⟨hlen, fun i h k => ?_⟩)
        have hmem : ds.get ⟨i, k⟩ ∈ ds := List.get_mem ds ⟨i, k⟩
        exact (ih _ hmem (heach i h k)).1 depth
          (Nat.le_trans (Datum.nesting_le_nestingItems hmem) (by omega))
      -- A vector needs as many levels as a tail as by itself.
      refine ⟨fun depth hdepth => hvector depth hdepth, fun depth hdepth => ?_⟩
      exact (hvector depth hdepth).behind_of_atom (by simp) (by simp)
        (by cases ds <;> simp [Datum.written, Datum.Place.dotted])

/-- The text of a value is the external form of the datum that it unfolds to. -/
theorem write_of_hasText {s : Store} {v : Value} {d : Datum} {depth : Nat} (hd : HasText d)
    (h : s.Unfolds v d) (hdepth : d.nesting .alone ≤ depth) :
    s.write depth v = .ok (String.ofList (d.written .alone)) := by
  rw [write, (prints_of_hasText hd h).1 depth hdepth ∅ "" (Inside.empty s d)]
  simp

theorem write_eq_written {s : Store} {v : Value} {d : Datum} {depth : Nat} (hd : Readable d)
    (h : s.Unfolds v d) (hdepth : d.nesting .alone ≤ depth) :
    s.write depth v = .ok (String.ofList (d.written .alone)) :=
  write_of_hasText hd.hasText h hdepth

/-! ### Texts in messages -/

theorem exists_mapM {α β : Type} {f : α → Except Fault β} {items : List α}
    (h : ∀ a ∈ items, ∃ b, f a = .ok b) : ∃ bs, items.mapM f = .ok bs := by
  induction items with
  | nil => exact ⟨[], rfl⟩
  | cons a items ih =>
      obtain ⟨b, hb⟩ := h a List.mem_cons_self
      obtain ⟨bs, hbs⟩ := ih fun a ha => h a (List.mem_cons_of_mem _ ha)
      exact ⟨b :: bs, by rw [List.mapM_cons, hb, hbs]; rfl⟩

/-- What has a text has one in a listing, too. Only vectors are written in a way
of their own there. -/
theorem exists_inspect {s : Store} {d : Datum} (hd : HasText d) :
    ∀ {v : Value} {depth : Nat}, s.Unfolds v d → d.nesting .alone ≤ depth →
      ∃ shown, s.inspect depth v = .ok shown := by
  have hlevel {d : Datum} {depth : Nat} (h : d.nesting .alone ≤ depth) : ∃ n, depth = n + 1 := by
    have := d.nesting_alone_pos
    exact ⟨depth - 1, by omega⟩
  induction hd with
  | text t | symbol name =>
      intro v depth hv hdepth
      obtain ⟨depth, rfl⟩ := hlevel hdepth
      cases hv
      exact ⟨_, rfl⟩
  | number _ | boolean _ | nil | pair _ _ =>
      intro v depth hv hdepth
      obtain ⟨depth, rfl⟩ := hlevel hdepth
      have hwrite := write_of_hasText (by constructor <;> assumption) hv hdepth
      cases hv
      exact ⟨_, hwrite⟩
  | @vector ds _ ih =>
      intro v depth hv hdepth
      obtain ⟨depth, rfl⟩ := hlevel hdepth
      cases hv with
      | @vector r vs _ items same each =>
          have hitems : ∀ w ∈ vs, ∃ shown, s.inspect depth w = .ok shown := by
            intro w hw
            obtain ⟨i, rfl⟩ := List.mem_iff_get.mp hw
            have hmem : ds.get ⟨i, same ▸ i.2⟩ ∈ ds := List.get_mem _ _
            refine ih _ hmem (each i i.2 (same ▸ i.2)) ?_
            have hle := Datum.nesting_le_nestingItems hmem
            simp only [Datum.nesting] at hdepth
            omega
          obtain ⟨shown, hshown⟩ := exists_mapM hitems
          refine ⟨"[" ++ ", ".intercalate shown ++ "]", ?_⟩
          rw [inspect, items, Option.getD_some, hshown]
          rfl

/-- What has a text can be named in a message. -/
theorem exists_display {s : Store} {v : Value} {d : Datum} {depth : Nat} (hd : HasText d)
    (h : s.Unfolds v d) (hdepth : d.nesting .alone ≤ depth) :
    ∃ shown, s.display depth v = .ok shown := by
  cases h with
  | text tag t => exact ⟨t, rfl⟩
  | symbol name => exact ⟨name, rfl⟩
  | number | boolean | nil | pair | vector =>
      exact exists_inspect hd (by constructor <;> assumption) hdepth

end Store

end MiniScheme
