import Mathlib.Data.List.ProdSigma
import MiniScheme.Proofs.Printing
import MiniScheme.Proofs.RigidValues
import MiniScheme.Proofs.Termination
import MiniScheme.Store.Equality

/-!
# `MiniScheme.Proofs.Comparing`: all values can be written and compared

A printer and a comparison remember the pairs they have met, and both forget
them again: the text of a closure starts afresh with the parameters, and a
comparison starts afresh with the elements of a vector. What ends them all the
same is the shape of the store.

* `Store.Surveyed` is what writing needs: no vector holds itself through
  vectors alone, and parameters can be written. Then the nesting is bounded by
  the number of pairs that are not active yet.
* `Store.VectorsEnd` is what comparing needs: nothing that a vector leads to
  lies on a cycle. Then the nesting is bounded by the number of comparisons of
  two pairs that have not begun yet.

Both hold where vectors and parameters are rigid (`Store.Bounded`).
`values_write_and_compare` puts this together with `MiniScheme.Proofs.RigidValues`,
where the shape of the store comes from.
-/

set_option autoImplicit false

namespace MiniScheme

namespace Store

/-- Vectors and the parameters of closures are rigid. -/
structure Bounded (s : Store) (frozen : Ref → Prop) : Prop where
  vectors : ∀ r < s.vectors.size, s.Rigid frozen (.vector r)
  formals : ∀ (r : Ref) (k : Closure), s.closures[r]? = some k → s.Rigid frozen k.formals

/-- Finitely many bounds have a common one. -/
theorem exists_bound {α : Type} {P : Nat → α → Prop}
    (hmono : ∀ {n m : Nat} {a : α}, n ≤ m → P n a → P m a) (items : List α)
    (h : ∀ a ∈ items, ∃ n, P n a) : ∃ n, ∀ a ∈ items, P n a := by
  induction items with
  | nil => exact ⟨0, fun a ha => absurd ha List.not_mem_nil⟩
  | cons b items ih =>
      obtain ⟨n, hn⟩ := h b List.mem_cons_self
      obtain ⟨m, hm⟩ := ih fun a ha => h a (List.mem_cons_of_mem b ha)
      refine ⟨max n m, fun a ha => ?_⟩
      rcases List.mem_cons.mp ha with rfl | ha
      · exact hmono (Nat.le_max_left n m) hn
      · exact hmono (Nat.le_max_right n m) (hm a ha)

/-! ### Writing -/

/-- The result is not this fault. -/
def Avoids {α : Type} (f : Fault) (x : Except Fault α) : Prop := x ≠ .error f

theorem Avoids.ok {α : Type} {f : Fault} (a : α) : Avoids f (.ok a : Except Fault α) := by rintro ⟨⟩

theorem Avoids.bind {α β : Type} {fault : Fault} {x : Except Fault α} {f : α → Except Fault β}
    (hx : Avoids fault x) (hf : ∀ a, Avoids fault (f a)) : Avoids fault (x >>= f) := by
  cases x with
  | ok a => exact hf a
  | error e =>
      intro h
      cases h
      exact hx rfl

/-- With a limit of `n` or more, the value can be written while these pairs
are active, alone and as the rest of a list. -/
structure WritesWithin (s : Store) (n : Nat) (active : Active) (v : Value) : Prop where
  alone : ∀ depth ≥ n, ∀ out, Avoids .tooDeep (s.writeTo depth active out v)
  behind : ∀ depth ≥ n, ∀ fuel out,
    Avoids .tooDeep (s.writeRest (s.writeTo depth) fuel active out v)

namespace WritesWithin

variable {s : Store} {n m : Nat} {active : Active} {v : Value}

theorem mono (hle : n ≤ m) (h : s.WritesWithin n active v) : s.WritesWithin m active v :=
  ⟨fun depth hd => h.alone depth (Nat.le_trans hle hd),
    fun depth hd => h.behind depth (Nat.le_trans hle hd)⟩

/-- Only pairs that are not active go on a list. -/
theorem of_alone (hv : s.inactive? active v = none)
    (h : ∀ depth ≥ n, ∀ out, Avoids .tooDeep (s.writeTo depth active out v)) :
    s.WritesWithin n active v := by
  refine ⟨h, fun depth hd fuel out => ?_⟩
  cases fuel with
  | zero => rintro ⟨⟩
  | succ fuel =>
      rw [writeRest, hv]
      dsimp only
      split
      · exact .ok _
      · exact (h depth hd _).bind fun out => .ok _

/-- A value that is not taken apart is written at once. -/
theorem of_atom (hv : v.IsAtom) : s.WritesWithin 1 active v := by
  have hinactive : s.inactive? active v = none := by
    cases v with
    | pair => exact hv.elim
    | _ => rfl
  refine of_alone hinactive fun depth hd out => ?_
  obtain ⟨depth, rfl⟩ : ∃ e, depth = e + 1 := ⟨depth - 1, by omega⟩
  cases v with
  | number k =>
      rw [writeTo, writeValue]
      split
      · exact .ok _
      · rintro ⟨⟩
  | pair | vector | closure | primitive => exact hv.elim
  | _ => exact .ok _

/-- A pair is written if its parts are, while it is active itself. -/
theorem pair {r : Ref}
    (h : ∀ q c, s.inactive? active (.pair r) = some (q, c) →
      s.WritesWithin n (active.insert q) c.car ∧ s.WritesWithin n (active.insert q) c.cdr) :
    s.WritesWithin (n + 1) active (.pair r) := by
  have halone : ∀ depth ≥ n + 1, ∀ out, Avoids .tooDeep (s.writeTo depth active out (.pair r)) := by
    intro depth hd out
    obtain ⟨depth, rfl⟩ : ∃ e, depth = e + 1 := ⟨depth - 1, by omega⟩
    rw [writeTo, writeValue]
    cases hr : s.inactive? active (.pair r) with
    | none => exact .ok _
    | some found =>
        obtain ⟨q, c⟩ := found
        obtain ⟨hcar, hcdr⟩ := h q c hr
        exact (hcar.alone depth (by omega) _).bind fun out => hcdr.behind depth (by omega) _ out
  cases hr : s.inactive? active (.pair r) with
  | none => exact of_alone hr halone
  | some found =>
      obtain ⟨q, c⟩ := found
      obtain ⟨hcar, hcdr⟩ := h q c hr
      refine ⟨halone, fun depth hd fuel out => ?_⟩
      cases fuel with
      | zero => rintro ⟨⟩
      | succ fuel =>
          rw [writeRest, hr]
          exact (hcar.alone depth (by omega) _).bind fun out =>
            hcdr.behind depth (by omega) fuel out

theorem items {items : List Value} (h : ∀ v ∈ items, s.WritesWithin n active v) :
    ∀ depth ≥ n, ∀ out, Avoids .tooDeep (writeItems (s.writeTo depth) active out items) := by
  intro depth hd
  induction items with
  | nil => intro out; exact .ok out
  | cons v items ih =>
      intro out
      have hfirst := (h v List.mem_cons_self).alone depth hd
      cases items with
      | nil => exact hfirst out
      | cons w items =>
          exact (hfirst out).bind fun out => ih (fun u hu => h u (List.mem_cons_of_mem v hu)) _

theorem vector {r : Ref} (h : ∀ v ∈ s.vectors[r]?.getD [], s.WritesWithin n active v) :
    s.WritesWithin (n + 1) active (.vector r) := by
  refine of_alone rfl fun depth hd out => ?_
  obtain ⟨depth, rfl⟩ : ∃ e, depth = e + 1 := ⟨depth - 1, by omega⟩
  rw [writeTo, writeValue]
  exact (items h depth (by omega) _).bind fun out => .ok _

theorem closure {r : Ref}
    (h : ∀ k, s.closures[r]? = some k → s.WritesWithin n ∅ k.formals) :
    s.WritesWithin (n + 1) active (.closure r) := by
  refine of_alone rfl fun depth hd out => ?_
  obtain ⟨depth, rfl⟩ : ∃ e, depth = e + 1 := ⟨depth - 1, by omega⟩
  rw [writeTo, writeValue]
  cases hk : s.closures[r]? with
  | none => exact .ok _
  | some k => exact ((h k hk).alone depth (by omega) _).bind fun out => .ok _

end WritesWithin

variable {s : Store} {frozen : Ref → Prop}

/-- A link that does not start at a pair. -/
def PairFreeLink (s : Store) (v w : Value) : Prop := s.Link v w ∧ ∀ r, v ≠ .pair r

/-- Links lead from these values to such values again, and through vectors
alone only finitely often. The parameters of closures among them can be
written. -/
structure Surveyed (s : Store) (P : Value → Prop) : Prop where
  link : ∀ {v w}, P v → s.Link v w → P w
  vectors : ∀ {v}, P v → Acc (fun w v => s.PairFreeLink v w) v
  formals : ∀ (r : Ref) (k : Closure), P (.closure r) → s.closures[r]? = some k →
    ∃ n, s.WritesWithin n ∅ k.formals

namespace Surveyed

variable {P : Value → Prop} {active : Active}

/-- If pairs can be written, then so can everything else, since vectors end. -/
theorem exists_writesWithin_of_pairs (h : s.Surveyed P)
    (hpairs : ∀ r, P (.pair r) → ∃ n, s.WritesWithin n active (.pair r)) {v : Value} (hv : P v) :
    ∃ n, s.WritesWithin n active v := by
  induction h.vectors hv with
  | intro v _ ih =>
      cases v with
      | pair r => exact hpairs r hv
      | vector r =>
          obtain ⟨n, hn⟩ := exists_bound (P := fun n v => s.WritesWithin n active v)
            (fun hle h => h.mono hle) (s.vectors[r]?.getD []) fun w hw => by
              have hlink := link_of_mem_elements hw
              exact ih w ⟨hlink, by rintro q ⟨⟩⟩ (h.link hv hlink)
          exact ⟨n + 1, .vector hn⟩
      | closure r =>
          cases hk : s.closures[r]? with
          | none => exact ⟨1, .closure fun k hk' => by cases hk.symm.trans hk'⟩
          | some k =>
              obtain ⟨n, hn⟩ := h.formals r k hv hk
              refine ⟨n + 1, .closure fun k' hk' => ?_⟩
              obtain rfl := Option.some.inj (hk.symm.trans hk')
              exact hn
      | primitive r =>
          refine ⟨1, .of_alone rfl fun depth hd out => ?_⟩
          obtain ⟨depth, rfl⟩ : ∃ e, depth = e + 1 := ⟨depth - 1, by omega⟩
          exact .ok _
      | _ => exact ⟨1, .of_atom trivial⟩

/-- Each pair that is written leaves fewer that are not active. -/
theorem exists_writesWithin_of_hasActive (h : s.Surveyed P) (room : Nat) :
    ∀ {n : Nat} {active : Active} {v : Value}, s.HasActive active n →
      s.cells.size ≤ n + room → P v → ∃ n, s.WritesWithin n active v := by
  induction room with
  | zero =>
      intro n active v hactive hroom
      refine h.exists_writesWithin_of_pairs fun r _ => ⟨1, .pair fun q c hq => ?_⟩
      have hle := (hactive.insert hq).le
      omega
  | succ room ih =>
      intro n active v hactive hroom
      refine h.exists_writesWithin_of_pairs fun r hpair => ?_
      cases hr : s.inactive? active (.pair r) with
      | none => exact ⟨1, .pair fun q c hq => by cases hr.symm.trans hq⟩
      | some found =>
          obtain ⟨q, c⟩ := found
          obtain ⟨hpair', -, hcell⟩ := inactive?_eq_some.mp hr
          cases hpair'
          have hinsert := hactive.insert hr
          obtain ⟨i, hcar⟩ := ih hinsert (by omega) (h.link hpair (.car hcell))
          obtain ⟨j, hcdr⟩ := ih hinsert (by omega) (h.link hpair (.cdr hcell))
          refine ⟨max i j + 1, .pair fun p d hp => ?_⟩
          cases hr.symm.trans hp
          exact ⟨hcar.mono (Nat.le_max_left i j), hcdr.mono (Nat.le_max_right i j)⟩

theorem exists_writesWithin (h : s.Surveyed P) {v : Value} (hv : P v) :
    ∃ n, s.WritesWithin n ∅ v :=
  h.exists_writesWithin_of_hasActive s.cells.size (.zero s ∅) (by omega) hv

/-- Such a value has an external form, or an integer with too many digits. -/
theorem exists_write_eq (h : s.Surveyed P) {v : Value} (hv : P v) :
    ∃ n result, (∀ depth ≥ n, s.write depth v = result) ∧
      ((∃ text, result = .ok text) ∨ result = .error .tooManyDigits) := by
  obtain ⟨n, hn⟩ := h.exists_writesWithin hv
  have hshallow : s.write n v ≠ .error .tooDeep := hn.alone n (Nat.le_refl n) ""
  refine ⟨n, s.write n v, fun depth hd => ?_, ?_⟩
  · exact (settles_write (.refl s) hd v).same.resolve_left hshallow
  · cases hresult : s.write n v with
    | ok text => exact .inl ⟨text, rfl⟩
    | error f =>
        have hlimit := (settles_write (.refl s) (Nat.le_refl n) v).limit f hresult
        cases hlimit with
        | tooDeep => exact absurd hresult hshallow
        | tooManyDigits => exact .inr rfl

end Surveyed

theorem surveyed_rigid (s : Store) (frozen : Ref → Prop) : s.Surveyed (s.Rigid frozen) where
  link h hlink := h.link hlink
  vectors h := Subrelation.accessible And.left h.acc
  formals r k h _ := by
    cases h with
    | atom simple => exact simple.elim

theorem Bounded.surveyed (h : s.Bounded frozen) : s.Surveyed fun _ => True where
  link _ _ := trivial
  vectors {v} _ := by
    refine .intro v fun w hlink => ?_
    -- Only vectors that are there have such links.
    cases hlink.1 with
    | car | cdr => exact absurd rfl (hlink.2 _)
    | element vector mem =>
        have hvector := h.vectors _ (Array.getElem?_eq_some_iff.mp vector).1
        exact Subrelation.accessible And.left (hvector.acc.inv (.element vector mem))
  formals r k _ hk := (surveyed_rigid s frozen).exists_writesWithin (h.formals r k hk)

/-! ### Comparing -/

/-- At least `n` comparisons of two pairs of the store have begun. -/
def HasSeen (s : Store) (seen : Seen) (n : Nat) : Prop :=
  ∃ refs : List (Ref × Ref), refs.Nodup ∧ refs.length = n ∧
    ∀ p ∈ refs, p.1 < s.cells.size ∧ p.2 < s.cells.size ∧ p ∈ seen

namespace HasSeen

variable {seen : Seen} {n : Nat}

theorem zero (s : Store) (seen : Seen) : s.HasSeen seen 0 :=
  ⟨[], List.nodup_nil, rfl, by simp⟩

theorem le (h : s.HasSeen seen n) : n ≤ s.cells.size * s.cells.size := by
  obtain ⟨refs, hnodup, rfl, hrefs⟩ := h
  have hsub : refs ⊆ List.range s.cells.size ×ˢ List.range s.cells.size := by
    intro p hp
    obtain ⟨hleft, hright, -⟩ := hrefs p hp
    exact List.mem_product.mpr ⟨List.mem_range.mpr hleft, List.mem_range.mpr hright⟩
  have hlength := (hnodup.subperm hsub).length_le
  rwa [List.length_product, List.length_range] at hlength

theorem mono {seen' : Seen} (hsub : ∀ p ∈ seen, p ∈ seen') (h : s.HasSeen seen n) :
    s.HasSeen seen' n := by
  obtain ⟨refs, hnodup, hlength, hrefs⟩ := h
  exact ⟨refs, hnodup, hlength, fun p hp =>
    ⟨(hrefs p hp).1, (hrefs p hp).2.1, hsub p (hrefs p hp).2.2⟩⟩

/-- A comparison that begins is one more. -/
theorem insert {r q : Ref} {c d : Cell} (h : s.HasSeen seen n) (hr : s.cells[r]? = some c)
    (hq : s.cells[q]? = some d) (hnew : (r, q) ∉ seen) :
    s.HasSeen (seen.insert (r, q)) (n + 1) := by
  obtain ⟨refs, hnodup, rfl, hrefs⟩ := h
  refine ⟨(r, q) :: refs, ?_, rfl, ?_⟩
  · exact List.nodup_cons.mpr ⟨fun hmem => hnew (hrefs _ hmem).2.2, hnodup⟩
  · simp only [List.mem_cons, forall_eq_or_imp]
    exact ⟨⟨(Array.getElem?_eq_some_iff.mp hr).1, (Array.getElem?_eq_some_iff.mp hq).1, by simp⟩,
      fun p hp => ⟨(hrefs p hp).1, (hrefs p hp).2.1, by simp [(hrefs p hp).2.2]⟩⟩

end HasSeen

/-- The comparison has an answer, and what had begun is not forgotten. -/
def Answered (seen : Seen) (x : Except Fault (Bool × Seen)) : Prop :=
  ∃ same seen', x = .ok (same, seen') ∧ ∀ p ∈ seen, p ∈ seen'

/-- Two values are both pairs, or are compared as leaves. -/
theorem equalChains_cases (s : Store) (a b : Value) :
    (∃ r q c d, a = .pair r ∧ b = .pair q ∧ s.cells[r]? = some c ∧ s.cells[q]? = some d) ∨
    (s.cell? a = none ∨ s.cell? b = none) ∧ ∀ element fuel seen,
      s.equalChains element (fuel + 1) seen a b
        = s.equalLeaves element a b >>= fun same => .ok (same, seen) := by
  cases a with
  | pair r =>
      cases b with
      | pair q =>
          cases hr : s.cells[r]? with
          | none =>
              exact .inr ⟨.inl hr, fun element fuel seen => by simp [equalChains, cell?, hr]⟩
          | some c =>
              cases hq : s.cells[q]? with
              | none =>
                  exact .inr ⟨.inr hq, fun element fuel seen => by simp [equalChains, cell?, hq]⟩
              | some d => exact .inl ⟨r, q, c, d, rfl, rfl, hr, hq⟩
      | _ => exact .inr ⟨.inr rfl, fun element fuel seen => rfl⟩
  | _ => exact .inr ⟨.inl rfl, fun element fuel seen => rfl⟩

/-- Leaves other than two vectors are compared at once. -/
theorem equalLeaves_cases (s : Store) (a b : Value) :
    (∃ r q, a = .vector r ∧ b = .vector q) ∨
    ∃ same, ∀ element, s.equalLeaves element a b = .ok same := by
  by_cases hvectors : ∃ r q, a = .vector r ∧ b = .vector q
  · exact .inl hvectors
  by_cases htexts : ∃ t x u y, a = .text t x ∧ b = .text u y
  · obtain ⟨t, x, u, y, rfl, rfl⟩ := htexts
    exact .inr ⟨_, fun element => rfl⟩
  -- Other values are compared as numbers, or as objects.
  refine .inr ⟨(a.numeric?.bind fun m => b.numeric?.map m.equal).getD (decide (a = b)),
    fun element => ?_⟩
  unfold equalLeaves
  split
  · exact absurd ⟨_, _, _, _, rfl, rfl⟩ htexts
  · exact absurd ⟨_, _, rfl, rfl⟩ hvectors
  · cases a.numeric? with
    | none => rfl
    | some m => cases b.numeric? <;> rfl

/-- With a limit of `n` or more for the parts, the comparison of the two values
has an answer, in as many steps as comparisons can still begin. -/
def ComparesWithin (s : Store) (n : Nat) (a b : Value) : Prop :=
  ∀ depth ≥ n, ∀ fuel begun seen, s.HasSeen seen begun →
    s.cells.size * s.cells.size < begun + fuel →
    Answered seen (s.equalChains (s.equalFrom depth) fuel seen a b)

/-- Two pairs are compared part by part. What the first parts have begun is
kept for the second ones. -/
theorem answered_pair {depth fuel begun : Nat} {seen : Seen} {r q : Ref} {c d : Cell}
    (hr : s.cells[r]? = some c) (hq : s.cells[q]? = some d) (hseen : s.HasSeen seen begun)
    (hcar : (r, q) ∉ seen →
      Answered (seen.insert (r, q)) (s.equalFrom depth (seen.insert (r, q)) c.car d.car))
    (hcdr : ∀ seen', s.HasSeen seen' (begun + 1) →
      Answered seen' (s.equalChains (s.equalFrom depth) fuel seen' c.cdr d.cdr)) :
    Answered seen (s.equalChains (s.equalFrom depth) (fuel + 1) seen (.pair r) (.pair q)) := by
  by_cases hnew : (r, q) ∈ seen
  · exact ⟨true, seen, by simp [equalChains, cell?, hr, hq, hnew], fun p hp => hp⟩
  · obtain ⟨same, seen₁, hfirst, hsub₁⟩ := hcar hnew
    have hkept : ∀ p ∈ seen, p ∈ seen₁ := fun p hp => hsub₁ p (by simp [hp])
    cases same with
    | false =>
        refine ⟨false, seen₁, ?_, hkept⟩
        simp only [equalChains, cell?, hr, hq, hnew, if_false, hfirst]
        rfl
    | true =>
        have hseen₁ := (hseen.insert hr hq hnew).mono hsub₁
        obtain ⟨same, seen₂, hsecond, hsub₂⟩ := hcdr seen₁ hseen₁
        refine ⟨same, seen₂, ?_, fun p hp => hsub₂ p (hkept p hp)⟩
        simp only [equalChains, cell?, hr, hq, hnew, if_false, hfirst]
        exact hsecond

/-- Values that are not both pairs are answered as leaves. -/
theorem answered_leaves {a b : Value} {element : Comparer} {fuel : Nat} {seen : Seen} {same : Bool}
    (hchains : ∀ element fuel seen, s.equalChains element (fuel + 1) seen a b
      = s.equalLeaves element a b >>= fun same => .ok (same, seen))
    (h : s.equalLeaves element a b = .ok same) :
    Answered seen (s.equalChains element (fuel + 1) seen a b) :=
  ⟨same, seen, by rw [hchains, h]; rfl, fun p hp => hp⟩

namespace ComparesWithin

variable {n m : Nat} {a b : Value}

theorem mono (hle : n ≤ m) (h : s.ComparesWithin n a b) : s.ComparesWithin m a b :=
  fun depth hd => h depth (Nat.le_trans hle hd)

/-- One level more for the comparison itself. -/
theorem equalFrom (h : s.ComparesWithin n a b) (seen : Seen) :
    ∀ depth ≥ n + 1, Answered seen (s.equalFrom depth seen a b) := by
  intro depth hd
  obtain ⟨depth, rfl⟩ : ∃ e, depth = e + 1 := ⟨depth - 1, by omega⟩
  exact h depth (by omega) _ 0 seen (.zero s seen) (by omega)

theorem items {vs : List Value} (h : ∀ v ∈ vs, ∀ w, s.ComparesWithin n v w) :
    ∀ depth ≥ n + 1, ∀ ws, ∃ same, equalItems (s.equalFrom depth) vs ws = .ok same := by
  intro depth hd
  induction vs with
  | nil => intro ws; exact ⟨true, by cases ws <;> rfl⟩
  | cons v vs ih =>
      intro ws
      have hrest := ih fun u hu => h u (List.mem_cons_of_mem v hu)
      cases ws with
      | nil => exact ⟨true, rfl⟩
      | cons w ws =>
          obtain ⟨same, seen, hfirst, -⟩ := (h v List.mem_cons_self w).equalFrom ∅ depth hd
          rw [equalItems]
          split
          · exact hrest ws
          · rw [hfirst]
            cases same with
            | false => exact ⟨false, rfl⟩
            | true => exact hrest ws

theorem vector {r : Ref} (h : ∀ v ∈ s.vectors[r]?.getD [], ∀ w, s.ComparesWithin n v w)
    (b : Value) : s.ComparesWithin (n + 1) (.vector r) b := by
  intro depth hd fuel begun seen hseen hfuel
  obtain ⟨fuel, rfl⟩ : ∃ e, fuel = e + 1 := ⟨fuel - 1, by have := hseen.le; omega⟩
  obtain ⟨_, _, _, _, hpair, _⟩ | ⟨-, hchains⟩ := equalChains_cases s (.vector r) b
  · cases hpair
  · obtain ⟨_, q, hr, rfl⟩ | ⟨same, hleaves⟩ := equalLeaves_cases s (.vector r) b
    · cases hr
      obtain ⟨same, hitems⟩ := items h depth hd (s.vectors[q]?.getD [])
      by_cases hlength : (s.vectors[r]?.getD []).length = (s.vectors[q]?.getD []).length
      · exact answered_leaves hchains (by rw [equalLeaves, if_pos hlength, hitems])
      · exact answered_leaves hchains (by rw [equalLeaves, if_neg hlength])
    · exact answered_leaves hchains (hleaves _)

/-- A value that is neither a pair nor a vector is compared at once. -/
theorem of_leaf (hcell : s.cell? a = none) (hvector : ∀ r, a ≠ .vector r) (b : Value) :
    s.ComparesWithin 0 a b := by
  intro depth _ fuel begun seen hseen hfuel
  obtain ⟨fuel, rfl⟩ : ∃ e, fuel = e + 1 := ⟨fuel - 1, by have := hseen.le; omega⟩
  obtain ⟨r, _, _, _, rfl, _, hr, _⟩ | ⟨-, hchains⟩ := equalChains_cases s a b
  · cases hcell.symm.trans hr
  · obtain ⟨r, _, hr, _⟩ | ⟨same, hleaves⟩ := equalLeaves_cases s a b
    · exact absurd hr (hvector r)
    · exact answered_leaves hchains (hleaves _)

end ComparesWithin

/-- A value that links lead away from only finitely often is compared within
its own nesting, with whatever value. -/
theorem exists_comparesWithin_of_acc {a : Value} (h : Acc (fun v' v => s.Link v v') a) :
    ∃ n, ∀ b, s.ComparesWithin n a b := by
  induction h with
  | intro a _ ih =>
      by_cases hvector : ∃ r, a = .vector r
      · obtain ⟨r, rfl⟩ := hvector
        obtain ⟨n, hn⟩ := exists_bound
          (P := fun n v => ∀ w, s.ComparesWithin n v w)
          (fun hle h w => (h w).mono hle) (s.vectors[r]?.getD [])
          fun v hv => ih v (link_of_mem_elements hv)
        exact ⟨n + 1, .vector hn⟩
      cases hcell : s.cell? a with
      | none => exact ⟨0, .of_leaf hcell fun r hr => hvector ⟨r, hr⟩⟩
      | some c =>
          obtain ⟨r, rfl, hr⟩ := cell?_eq_some hcell
          obtain ⟨n, hcar⟩ := ih c.car (.car hr)
          obtain ⟨m, hcdr⟩ := ih c.cdr (.cdr hr)
          refine ⟨max (n + 1) m, fun b depth hd fuel begun seen hseen hfuel => ?_⟩
          obtain ⟨fuel, rfl⟩ : ∃ e, fuel = e + 1 := ⟨fuel - 1, by have := hseen.le; omega⟩
          obtain ⟨_, q, c', d, hpair, rfl, hc, hq⟩ | ⟨-, hchains⟩ := equalChains_cases s (.pair r) b
          · cases hpair
            obtain rfl := Option.some.inj (hr.symm.trans hc)
            exact answered_pair hc hq hseen
              (fun _ => (hcar d.car).equalFrom _ depth (Nat.le_trans (Nat.le_max_left _ m) hd))
              fun seen' hseen' => hcdr d.cdr depth (Nat.le_trans (Nat.le_max_right _ m) hd) fuel _
                seen' hseen' (by omega)
          · obtain ⟨_, _, hpair, _⟩ | ⟨same, hleaves⟩ := equalLeaves_cases s (.pair r) b
            · cases hpair
            · exact answered_leaves hchains (hleaves _)

/-- Links lead away from a vector only finitely often. -/
def VectorsEnd (s : Store) : Prop :=
  ∀ r < s.vectors.size, Acc (fun v' v => s.Link v v') (.vector r)

theorem Bounded.vectorsEnd (h : s.Bounded frozen) : s.VectorsEnd :=
  fun r hr => (h.vectors r hr).acc

namespace VectorsEnd

/-- All values that are no pairs are compared within a common nesting. -/
theorem exists_comparesWithin (h : s.VectorsEnd) :
    ∃ n, ∀ a, s.cell? a = none → ∀ b, s.ComparesWithin n a b := by
  obtain ⟨n, hn⟩ := exists_bound
    (P := fun n r => ∀ b, s.ComparesWithin n (.vector r) b)
    (fun hle h b => (h b).mono hle) (List.range s.vectors.size)
    fun r hr => exists_comparesWithin_of_acc (h r (List.mem_range.mp hr))
  refine ⟨n + 1, fun a ha b => ?_⟩
  by_cases hvector : ∃ r, a = .vector r
  · obtain ⟨r, rfl⟩ := hvector
    by_cases hr : r < s.vectors.size
    · exact (hn r (List.mem_range.mpr hr) b).mono (Nat.le_succ n)
    · exact .vector (fun v hv => by simp [hr] at hv) b
  · exact (ComparesWithin.of_leaf ha (fun r hr => hvector ⟨r, hr⟩) b).mono (Nat.zero_le _)

/-- Each comparison of pairs leaves fewer that have not begun. -/
theorem exists_answered (h : s.VectorsEnd) : ∃ n, ∀ room, ∀ depth ≥ n + room,
    ∀ fuel begun seen, s.HasSeen seen begun → s.cells.size * s.cells.size ≤ begun + room →
      s.cells.size * s.cells.size < begun + fuel → ∀ a b,
        Answered seen (s.equalChains (s.equalFrom depth) fuel seen a b) := by
  obtain ⟨n, hn⟩ := h.exists_comparesWithin
  refine ⟨n, fun room => ?_⟩
  induction room using Nat.strongRecOn with
  | ind room ih =>
      intro depth hd fuel begun seen hseen hroom hfuel a b
      obtain ⟨fuel, rfl⟩ : ∃ e, fuel = e + 1 := ⟨fuel - 1, by have := hseen.le; omega⟩
      obtain ⟨r, q, c, d, rfl, rfl, hr, hq⟩ | ⟨-, hchains⟩ := equalChains_cases s a b
      · refine answered_pair hr hq hseen (fun hnew => ?_) fun seen' hseen' => ?_
        · have hinsert := hseen.insert hr hq hnew
          have hle := hinsert.le
          obtain ⟨depth, rfl⟩ : ∃ e, depth = e + 1 := ⟨depth - 1, by omega⟩
          exact ih (room - 1) (by omega) depth (by omega) _ _ _ hinsert (by omega) (by omega) _ _
        · have hle := hseen'.le
          exact ih (room - 1) (by omega) depth (by omega) fuel _ seen' hseen' (by omega) (by omega)
            _ _
      · cases ha : s.cell? a with
        | none => exact hn a ha b depth (by omega) _ begun seen hseen hfuel
        | some c =>
            -- The other value is no pair, so they are no vectors.
            obtain ⟨r, rfl, -⟩ := cell?_eq_some ha
            obtain ⟨_, _, hr, _⟩ | ⟨same, hleaves⟩ := equalLeaves_cases s (.pair r) b
            · cases hr
            · exact answered_leaves hchains (hleaves _)

end VectorsEnd

/-! ### The limit does not show in an answer -/

/-- The second comparer gives every answer that the first one gives. -/
def ComparerSettles (x y : Comparer) : Prop :=
  ∀ seen a b, SettlesDepth (x seen a b) (y seen a b)

section Settles

variable {element element' : Comparer}

theorem settles_equalItems (he : ComparerSettles element element') (vs : List Value) :
    ∀ ws, SettlesDepth (equalItems element vs ws) (equalItems element' vs ws) := by
  induction vs with
  | nil => intro ws; exact .inr rfl
  | cons v vs ih =>
      intro ws
      cases ws with
      | nil => exact .inr rfl
      | cons w ws =>
          rw [equalItems, equalItems]
          split
          · exact ih ws
          · refine (he ∅ v w).bind fun answer => ?_
            obtain ⟨_ | _, seen⟩ := answer
            · exact .inr rfl
            · exact ih ws

theorem settles_equalLeaves (he : ComparerSettles element element') (a b : Value) :
    SettlesDepth (s.equalLeaves element a b) (s.equalLeaves element' a b) := by
  obtain ⟨r, q, rfl, rfl⟩ | ⟨same, hleaves⟩ := equalLeaves_cases s a b
  · rw [equalLeaves, equalLeaves]
    split
    · exact settles_equalItems he _ _
    · exact .inr rfl
  · rw [hleaves, hleaves]
    exact .inr rfl

theorem settles_equalChains (he : ComparerSettles element element') (fuel : Nat) :
    ComparerSettles (s.equalChains element fuel) (s.equalChains element' fuel) := by
  induction fuel with
  | zero => intro seen a b; exact .inr rfl
  | succ fuel ih =>
      intro seen a b
      obtain ⟨r, q, c, d, rfl, rfl, hr, hq⟩ | ⟨-, hchains⟩ := equalChains_cases s a b
      · simp only [equalChains, cell?, hr, hq]
        split
        · exact .inr rfl
        · refine (he _ _ _).bind fun first => ?_
          obtain ⟨_ | _, seen'⟩ := first
          · exact .inr rfl
          · exact ih _ _ _
      · rw [hchains, hchains]
        exact (settles_equalLeaves he a b).bind fun same => .inr rfl

/-- A higher limit gives the same answer. -/
theorem settles_equalFrom {d d' : Nat} (hd : d ≤ d') :
    ComparerSettles (s.equalFrom d) (s.equalFrom d') := by
  induction d generalizing d' with
  | zero => exact fun _ _ _ => .inl rfl
  | succ d ih =>
      obtain ⟨e, rfl⟩ : ∃ e, d' = e + 1 := ⟨d' - 1, by omega⟩
      exact settles_equalChains (ih (by omega)) _

theorem settles_equal {d d' : Nat} (hd : d ≤ d') (a b : Value) :
    SettlesDepth (s.equal d a b) (s.equal d' a b) := by
  rcases settles_equalFrom hd ∅ a b with h | h
  · exact .inl (by rw [equal, h]; rfl)
  · exact .inr (by rw [equal, equal, h])

end Settles

/-- Any two values are equal, or they are not. -/
theorem VectorsEnd.exists_equal_eq (h : s.VectorsEnd) :
    ∃ n, ∀ a b, ∃ same, ∀ depth ≥ n, s.equal depth a b = .ok same := by
  obtain ⟨n, hn⟩ := h.exists_answered
  refine ⟨n + s.cells.size * s.cells.size + 1, fun a b => ?_⟩
  obtain ⟨same, seen, hanswer, -⟩ := hn (s.cells.size * s.cells.size) _ (Nat.le_refl _)
    (s.cells.size * s.cells.size + 1) 0 ∅ (.zero s ∅) (by omega) (by omega) a b
  have hequal : s.equal (n + s.cells.size * s.cells.size + 1) a b = .ok same := by
    rw [equal, equalFrom, hanswer]
    rfl
  refine ⟨same, fun depth hd => ?_⟩
  rcases settles_equal hd a b with htooDeep | hsame
  · cases hequal.symm.trans htooDeep
  · exact hsame.trans hequal

end Store

/-! ### Runs of source texts -/

/-- At every moment vectors and parameters are rigid. -/
theorem bounded_of_attains {primitives : List Primitive} {placeholders : List String}
    {journal : Option (List Event)} {c : Configuration}
    (h : (Configuration.global primitives placeholders journal).Attains c) :
    ∃ frozen, c.machine.store.Bounded frozen := by
  obtain ⟨_, hstart, -⟩ := RigidWorld.exists_obeys_global primitives placeholders journal
  obtain ⟨w, -, hobeys⟩ := Configuration.reaches_of_attains (fun _ _ _ => trivial) hstart h
  rw [← show w.code.store = c.machine.store from hobeys.store]
  exact ⟨_, w.vectors, w.formals⟩

/-- **All values can be written and compared.** At every moment of a run of
source texts that starts with a global frame:

* no cycle of links between pairs and vectors passes through a vector;
* no closure can be reached from the parameters of a closure;
* writing ends for every value, with the same result under any limit that is
  high enough: a text, or the fault of an integer with too many digits;
* comparing ends for any two values, with the same answer under any limit that
  is high enough. -/
theorem values_write_and_compare (primitives : List Primitive) (placeholders : List String)
    (journal : Option (List Event)) (c : Configuration)
    (h : (Configuration.global primitives placeholders journal).Attains c) :
    (∀ r, ¬ Relation.TransGen c.machine.store.Link (.vector r) (.vector r)) ∧
    (∀ (r : Ref) (k : Closure), c.machine.store.closures[r]? = some k →
      ∀ q, ¬ Relation.ReflTransGen c.machine.store.Link k.formals (.closure q)) ∧
    (∀ v, ∃ n result, (∀ depth ≥ n, c.machine.store.write depth v = result) ∧
      ((∃ text, result = .ok text) ∨ result = .error .tooManyDigits)) ∧
    ∃ n, ∀ a b, ∃ same, ∀ depth ≥ n, c.machine.store.equal depth a b = .ok same := by
  obtain ⟨frozen, hbounded⟩ := bounded_of_attains h
  refine ⟨fun r hcycle => ?_, fun r k hk q => (hbounded.formals r k hk).not_closure,
    fun v => hbounded.surveyed.exists_write_eq trivial, hbounded.vectorsEnd.exists_equal_eq⟩
  -- A vector on a cycle has an element, so it is there.
  have hr : r < c.machine.store.vectors.size := by
    obtain ⟨v, hfirst, -⟩ := Relation.TransGen.head'_iff.mp hcycle
    cases hfirst with
    | element vector _ => exact (Array.getElem?_eq_some_iff.mp vector).1
  exact (hbounded.vectors r hr).irrefl hcycle

/-- A program that makes a list circular, with a vector in it that holds a
list. -/
def vectorProgram : String := "(set! it '(1 #(2 (3)))) (set-cdr! (cdr it) it)"

/-- After that program, the circular list can be written and compared with
itself. -/
theorem values_write_and_compare_circular :
    ∃ c : Configuration,
      (Configuration.global standardPrimitives ["it"] none).Attains c ∧
      (c.machine.store.lookup? 0 "it").map c.machine.store.spine? = some none ∧
      c.machine.store.vectors.size = 1 ∧
      ¬ Relation.TransGen c.machine.store.Link (.vector 0) (.vector 0) ∧
      (∀ v, c.machine.store.lookup? 0 "it" = some v →
        ∃ n result, ∀ depth ≥ n, c.machine.store.write depth v = result) ∧
      ∃ n, ∀ a b, ∃ same, ∀ depth ≥ n, c.machine.store.equal depth a b = .ok same := by
  obtain ⟨c, hattains, -, hmachine⟩ := Configuration.exists_attains_run
    (c := Configuration.global standardPrimitives ["it"] none) rfl 20 0 vectorProgram
    (by decide +kernel)
  obtain ⟨hvectors, -, hwrite, hequal⟩ :=
    values_write_and_compare standardPrimitives ["it"] none c hattains
  refine ⟨c, hattains, ?_, ?_, hvectors 0, fun v _ => ?_, hequal⟩
  · rw [hmachine]
    decide +kernel
  · rw [hmachine]
    decide +kernel
  · obtain ⟨n, result, hresult, -⟩ := hwrite v
    exact ⟨n, result, hresult⟩

end MiniScheme
