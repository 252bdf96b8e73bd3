import MiniScheme.Proofs.Printing
import MiniScheme.Proofs.References

/-!
# `MiniScheme.Proofs.Refusals`: how calls of primitives end

A primitive that gets an argument of the wrong type refuses the call, and the
fault names the texts of arguments. Not every value has a text: an integer can
have too many digits, and nesting can be too deep. Then the refusal fails in
its turn, at that limit.

`Operation.Verdict` lists the four ways in which a call with the right number
of arguments ends, each with what it means for the arguments and for the
store. `run_verdict` says that there are no others; it is put together from
one lemma for operations on pairs, one for arithmetic, one for comparisons,
and the rest by looking. The main fact, `primitive_calls_end`, reads the
verdict by the kind of fault. That a call with a wrong argument does not
always end in the refusal is `car_of_tooManyDigits`.
-/

set_option autoImplicit false

namespace MiniScheme

namespace Operation

/-! ### Wrong arguments -/

/-- An argument has the wrong type: the first one of an operation that takes a
pair is none, or one of an operation on numbers is none. -/
def IllTyped (op : Operation) (s : Store) (args : List Value) : Prop :=
  match op with
  | car | cdr | setCar | setCdr => ∃ p, args.head? = some p ∧ s.cell? p = none
  | add | sub | mul | equal | less | greater => ∃ v ∈ args, ∀ n, v ≠ .number n
  | cons | same | isPair | isNull | isSymbol => False

/-- The arguments that a refusal names. -/
def named (op : Operation) (args : List Value) : List Value :=
  match op with
  | car | cdr | setCar | setCdr => args.take 1
  | _ => args

/-- The refusals of an operation. -/
inductive IsRefusal (op : Operation) : Fault → Prop
  | notPair (shown : String) : IsRefusal op (.notPair op.name shown)
  | notNumbers (left right : String) : IsRefusal op (.notNumbers op.name left right)

/-- An integer is to be rounded to a binary64 number and is out of their
range. -/
def Overflows (op : Operation) (args : List Value) : Prop :=
  match op with
  | add | sub | mul => ∃ n x, Binary64.ofInt? n = none ∧
      (args = [.number (.int n), .number (.real x)] ∨ args = [.number (.real x), .number (.int n)])
  | _ => False

/-- What a successful call leaves. An assignment has changed one field of its
first argument, `cons` has made one pair, and all other calls have changed
nothing. -/
def Leaves (op : Operation) (s : Store) (args : List Value) (result : Value) (t : Store) : Prop :=
  match op, args with
  | cons, [a, d] => result = .pair s.cells.size ∧ s.Adds t (.cell s.cells.size) ∧
      t.cells[s.cells.size]? = some ⟨a, d⟩
  | setCar, [p, v] => ∃ r c, p = .pair r ∧ s.cells[r]? = some c ∧ result = p ∧
      s.Changes t (.cell r) ∧ t.cells[r]? = some { c with car := v }
  | setCdr, [p, v] => ∃ r c, p = .pair r ∧ s.cells[r]? = some c ∧ result = p ∧
      s.Changes t (.cell r) ∧ t.cells[r]? = some { c with cdr := v }
  | _, _ => t = s

/-- The ways in which a call ends. -/
inductive Verdict (op : Operation) (depth : Nat) (args : List Value) (s : Store) :
    EStateM.Result Fault Machine Value → Prop
  | refused {fault : Fault} {m' : Machine} (ill : op.IllTyped s args)
      (shown : ∀ v ∈ op.named args, ∃ text, s.display depth v = .ok text)
      (refusal : op.IsRefusal fault) (kept : m'.store = s) :
      Verdict op depth args s (.error fault m')
  | limited {fault : Fault} {m' : Machine} {v : Value} (ill : op.IllTyped s args)
      (mem : v ∈ op.named args) (unshown : s.display depth v = .error fault)
      (kept : m'.store = s) :
      Verdict op depth args s (.error fault m')
  | overflow {m' : Machine} (typed : ¬op.IllTyped s args) (large : op.Overflows args)
      (kept : m'.store = s) : Verdict op depth args s (.error .outOfRange m')
  | done {v : Value} {m' : Machine} (typed : ¬op.IllTyped s args)
      (fits : ¬op.Overflows args) (left : op.Leaves s args v m'.store) :
      Verdict op depth args s (.ok v m')

variable {op : Operation} {depth : Nat} {m : Machine} {a b p : Value} {args : List Value}

/-! ### Operations on pairs -/

theorem pairArgument_of_cell {r : Ref} {c : Cell} (h : m.store.cells[r]? = some c) :
    pairArgument depth op (.pair r) m = .ok (r, c) m := by
  have hcell : m.store.cell? (.pair r) = some c := h
  rw [pairArgument, inquire_bind_run, hcell]
  rfl

theorem pairArgument_of_cell?_eq_none (h : m.store.cell? p = none) :
    pairArgument depth op p m = .error (m.store.complaint depth (.notPair op.name) p) m := by
  rw [pairArgument, inquire_bind_run, h]
  cases p <;> exact failShowing_run _ _ _ _

/-- An operation that takes a pair refuses what is none, and otherwise goes on
with the fields of the pair. -/
theorem verdict_pair {k : Ref × Cell → Eval Value}
    (hill : op.IllTyped m.store args ↔ m.store.cell? p = none) (hnamed : op.named args = [p])
    (hpair : ∀ r c, p = .pair r → m.store.cells[r]? = some c →
      op.Verdict depth args m.store (k (r, c) m)) :
    op.Verdict depth args m.store ((pairArgument depth op p >>= k) m) := by
  cases hcell : m.store.cell? p with
  | some c =>
      obtain ⟨r, rfl, hr⟩ := Store.cell?_eq_some hcell
      rw [bind_run_ok (pairArgument_of_cell hr)]
      exact hpair r c rfl hr
  | none =>
      -- The refusal needs the text of the argument first.
      rw [bind_run_error (pairArgument_of_cell?_eq_none hcell), Store.complaint]
      cases hshown : m.store.display depth p with
      | ok text =>
          refine .refused (hill.mpr hcell) (fun v hv => ?_) (.notPair text) rfl
          rw [hnamed, List.mem_singleton] at hv
          exact ⟨text, hv ▸ hshown⟩
      | error limit =>
          refine .limited (hill.mpr hcell) ?_ hshown rfl
          rw [hnamed]
          exact List.mem_singleton_self p

/-! ### Operations on numbers -/

theorem numberArguments_of_not_numbers (h : ∃ v ∈ [a, b], ∀ n, v ≠ .number n) :
    numberArguments depth op a b m = (examine (fun s => s.display depth a) >>= fun left =>
      examine (fun s => s.display depth b) >>= fun right =>
        throw (.notNumbers op.name left right)) m := by
  unfold numberArguments
  split
  · obtain ⟨v, hv, hne⟩ := h
    rcases List.mem_pair.mp hv with rfl | rfl
    · exact absurd rfl (hne _)
    · exact absurd rfl (hne _)
  · rfl

/-- An operation that takes numbers refuses anything else, and otherwise goes
on with the numbers. -/
theorem verdict_numbers {k : Number × Number → Eval Value}
    (hill : op.IllTyped m.store [a, b] ↔ ∃ v ∈ [a, b], ∀ n, v ≠ .number n)
    (hnamed : op.named [a, b] = [a, b])
    (hnumbers : ∀ x y, a = .number x → b = .number y → op.Verdict depth [a, b] m.store (k (x, y) m)) :
    op.Verdict depth [a, b] m.store ((numberArguments depth op a b >>= k) m) := by
  by_cases h : ∃ v ∈ [a, b], ∀ n, v ≠ .number n
  · rw [bind_run, numberArguments_of_not_numbers h]
    -- Both texts are made before the refusal, the left one first.
    cases hleft : m.store.display depth a with
    | error limit =>
        rw [bind_run_error (examine_run_error hleft)]
        exact .limited (hill.mpr h) (by simp [hnamed]) hleft rfl
    | ok left =>
        rw [bind_run_ok (examine_run_ok hleft)]
        cases hright : m.store.display depth b with
        | error limit =>
            rw [bind_run_error (examine_run_error hright)]
            exact .limited (hill.mpr h) (by simp [hnamed]) hright rfl
        | ok right =>
            rw [bind_run_ok (examine_run_ok hright)]
            refine .refused (hill.mpr h) (fun v hv => ?_) (.notNumbers left right) rfl
            rw [hnamed] at hv
            rcases List.mem_pair.mp hv with rfl | rfl
            · exact ⟨left, hleft⟩
            · exact ⟨right, hright⟩
  · obtain ⟨x, rfl⟩ : ∃ x, a = .number x := by
      by_contra hne
      exact h ⟨a, by simp, fun n hn => hne ⟨n, hn⟩⟩
    obtain ⟨y, rfl⟩ : ∃ y, b = .number y := by
      by_contra hne
      exact h ⟨b, by simp, fun n hn => hne ⟨n, hn⟩⟩
    exact hnumbers x y rfl rfl

/-- Numbers are combined unless one is an integer and the other is not, and
the integer is out of range. -/
theorem combine_eq_none_iff {exact : Int → Int → Int}
    {rounded : Binary64 → Binary64 → Binary64} {x y : Number} :
    Number.combine exact rounded x y = none ↔ ∃ n z, Binary64.ofInt? n = none ∧
      ((x = .int n ∧ y = .real z) ∨ (x = .real z ∧ y = .int n)) := by
  cases x <;> cases y <;> simp [Number.combine]

theorem verdict_arithmetic {exact : Int → Int → Int} {rounded : Binary64 → Binary64 → Binary64}
    (hop : op = add ∨ op = sub ∨ op = mul) :
    op.Verdict depth [a, b] m.store (arithmetic depth op (Number.combine exact rounded) a b m) := by
  refine verdict_numbers ?_ ?_ fun x y ha hb => ?_
  · rcases hop with rfl | rfl | rfl <;> rfl
  · rcases hop with rfl | rfl | rfl <;> rfl
  · -- Two numbers are left, and only rounding can fail.
    have htyped : ¬op.IllTyped m.store [a, b] := by
      have hnumbers : ¬∃ v ∈ [a, b], ∀ n, v ≠ .number n := by simp [ha, hb]
      rcases hop with rfl | rfl | rfl <;> exact hnumbers
    have hover : op.Overflows [a, b] ↔ Number.combine exact rounded x y = none := by
      rw [combine_eq_none_iff]
      rcases hop with rfl | rfl | rfl <;> simp [Overflows, ha, hb]
    dsimp only
    cases hf : Number.combine exact rounded x y with
    | some n =>
        refine .done htyped (fun h => ?_) ?_
        · cases hf.symm.trans (hover.mp h)
        · rcases hop with rfl | rfl | rfl <;> rfl
    | none => exact .overflow htyped (hover.mpr hf) rfl

theorem verdict_comparison {f : Number → Number → Bool}
    (hop : op = equal ∨ op = less ∨ op = greater) :
    op.Verdict depth [a, b] m.store (comparison depth op f a b m) := by
  refine verdict_numbers ?_ ?_ fun x y ha hb => ?_
  · rcases hop with rfl | rfl | rfl <;> rfl
  · rcases hop with rfl | rfl | rfl <;> rfl
  · refine .done ?_ ?_ ?_
    · have hnumbers : ¬∃ v ∈ [a, b], ∀ n, v ≠ .number n := by simp [ha, hb]
      rcases hop with rfl | rfl | rfl <;> exact hnumbers
    · rcases hop with rfl | rfl | rfl <;> exact id
    · rcases hop with rfl | rfl | rfl <;> rfl

/-! ### All operations -/

/-- An operation that was given its number of arguments ends in one of the
four ways. -/
theorem run_verdict (h : args.length = op.arity) :
    op.Verdict depth args m.store (op.run depth args m) := by
  cases op with
  | car | cdr =>
      obtain ⟨p, rfl⟩ := List.length_eq_one_iff.mp h
      exact verdict_pair (by simp [IllTyped]) rfl fun r c hp hr =>
        .done (by simp [IllTyped, hp, Store.cell?, hr]) id rfl
  | setCar | setCdr =>
      obtain ⟨p, v, rfl⟩ := List.length_eq_two.mp h
      refine verdict_pair (by simp [IllTyped]) rfl fun r c hp hr => ?_
      refine .done (by simp [IllTyped, hp, Store.cell?, hr]) id
        ⟨r, c, hp, hr, rfl, Store.changes_modifyCell _ _ _, ?_⟩
      show (m.store.cells.modify r _)[r]? = _
      simp [Array.getElem?_modify, hr]
  | cons =>
      obtain ⟨a, d, rfl⟩ := List.length_eq_two.mp h
      exact .done id id ⟨rfl, Store.adds_cons _ _ _, Array.getElem?_push_size⟩
  | add | sub | mul =>
      obtain ⟨a, b, rfl⟩ := List.length_eq_two.mp h
      exact verdict_arithmetic (by simp)
  | equal | less | greater =>
      obtain ⟨a, b, rfl⟩ := List.length_eq_two.mp h
      exact verdict_comparison (by simp)
  | same =>
      obtain ⟨a, b, rfl⟩ := List.length_eq_two.mp h
      exact .done id id rfl
  | isPair | isNull | isSymbol =>
      obtain ⟨v, rfl⟩ := List.length_eq_one_iff.mp h
      exact .done id id rfl

/-- Where an integer overflows, both arguments are numbers. -/
theorem not_illTyped_of_overflows {s : Store} (h : op.Overflows args) : ¬op.IllTyped s args := by
  cases op with
  | add | sub | mul =>
      obtain ⟨n, x, -, rfl | rfl⟩ := h <;> simp [IllTyped]
  | _ => exact h.elim

theorem IsRefusal.not_isLimit {fault : Fault} (h : op.IsRefusal fault) : ¬IsLimit fault := by
  cases h <;> rintro ⟨⟩

end Operation

/-- A value that has no text goes beyond a limit. -/
theorem Store.isLimit_of_display {s : Store} {depth : Nat} {v : Value} {fault : Fault}
    (h : s.display depth v = .error fault) : IsLimit fault :=
  (s.settles_display (.refl s) (Nat.le_refl depth) v).limit fault h

/-! ### Reading a verdict -/

namespace Operation.Verdict

variable {op : Operation} {depth : Nat} {args : List Value} {s : Store}
  {result : EStateM.Result Fault Machine Value}

theorem refused_iff (h : op.Verdict depth args s result) :
    (∃ fault m', result = .error fault m' ∧ op.IsRefusal fault) ↔
      op.IllTyped s args ∧ ∀ v ∈ op.named args, ∃ text, s.display depth v = .ok text := by
  constructor
  · rintro ⟨fault, m', rfl, hrefusal⟩
    cases h with
    | refused ill shown => exact ⟨ill, shown⟩
    | limited _ _ unshown => exact absurd (Store.isLimit_of_display unshown) hrefusal.not_isLimit
    | overflow => cases hrefusal
  · rintro ⟨hill, hshown⟩
    cases h with
    | refused _ _ refusal => exact ⟨_, _, rfl, refusal⟩
    | limited _ mem unshown =>
        obtain ⟨text, htext⟩ := hshown _ mem
        cases htext.symm.trans unshown
    | overflow typed => exact absurd hill typed
    | done typed => exact absurd hill typed

theorem limited_iff (h : op.Verdict depth args s result) :
    (∃ fault m', result = .error fault m' ∧ IsLimit fault) ↔
      op.IllTyped s args ∧ ∃ v ∈ op.named args, ∃ fault, s.display depth v = .error fault := by
  constructor
  · rintro ⟨fault, m', rfl, hlimit⟩
    cases h with
    | refused _ _ refusal => exact absurd hlimit refusal.not_isLimit
    | limited ill mem unshown => exact ⟨ill, _, mem, _, unshown⟩
    | overflow => cases hlimit
  · rintro ⟨hill, v, hv, fault, hfault⟩
    cases h with
    | refused _ shown =>
        obtain ⟨text, htext⟩ := shown v hv
        cases htext.symm.trans hfault
    | limited _ _ unshown => exact ⟨_, _, rfl, Store.isLimit_of_display unshown⟩
    | overflow typed => exact absurd hill typed
    | done typed => exact absurd hill typed

theorem overflow_iff (h : op.Verdict depth args s result) :
    (∃ m', result = .error .outOfRange m') ↔ op.Overflows args := by
  constructor
  · rintro ⟨m', rfl⟩
    cases h with
    | refused _ _ refusal => cases refusal
    | limited _ _ unshown => cases Store.isLimit_of_display unshown
    | overflow _ large => exact large
  · intro hlarge
    cases h with
    | refused ill => exact absurd ill (not_illTyped_of_overflows hlarge)
    | limited ill => exact absurd ill (not_illTyped_of_overflows hlarge)
    | overflow => exact ⟨_, rfl⟩
    | done _ fits => exact absurd hlarge fits

theorem of_error {fault : Fault} {m' : Machine} (h : op.Verdict depth args s (.error fault m')) :
    (op.IsRefusal fault ∨ IsLimit fault ∨ fault = .outOfRange) ∧ m'.store = s := by
  cases h with
  | refused _ _ refusal kept => exact ⟨.inl refusal, kept⟩
  | limited _ _ unshown kept => exact ⟨.inr (.inl (Store.isLimit_of_display unshown)), kept⟩
  | overflow _ _ kept => exact ⟨.inr (.inr rfl), kept⟩

theorem of_ok {v : Value} {m' : Machine} (h : op.Verdict depth args s (.ok v m')) :
    op.Leaves s args v m'.store := by
  cases h with
  | done _ _ left => exact left

end Operation.Verdict

/-! ### Calls -/

theorem verdict_of_mem_standardPrimitives {p : Primitive} (hp : p ∈ standardPrimitives)
    {args : List Value} (hcount : (args.length : Int) = p.arity) (depth : Nat) (m : Machine) :
    p.operation.Verdict depth args m.store (applyPrimitive depth p args m) := by
  obtain ⟨m', hstore, hrun⟩ := applyPrimitive_of_count depth (m := m) hcount
  obtain ⟨op, -, rfl⟩ := List.mem_map.mp hp
  rw [hrun, ← hstore]
  exact Operation.run_verdict (Int.ofNat_inj.mp hcount)

/-- **How calls of primitives fail, and what they change.** A call of a standard
primitive with the right number of arguments is refused if and only if an
argument has the wrong type and all arguments to be named have texts. If one of
these has none, the call fails at that limit, and this is the only way to do
so. An integer out of range, next to a binary64 number in arithmetic, is the
only other failure. A call that fails leaves the store as it is, and one that
succeeds changes only what its operation is there to change. -/
theorem primitive_calls_end {p : Primitive} (hp : p ∈ standardPrimitives) {args : List Value}
    (hcount : (args.length : Int) = p.arity) (depth : Nat) (m : Machine) :
    ((∃ fault m', applyPrimitive depth p args m = .error fault m' ∧
        p.operation.IsRefusal fault) ↔
      p.operation.IllTyped m.store args ∧
        ∀ v ∈ p.operation.named args, ∃ text, m.store.display depth v = .ok text) ∧
    ((∃ fault m', applyPrimitive depth p args m = .error fault m' ∧ IsLimit fault) ↔
      p.operation.IllTyped m.store args ∧
        ∃ v ∈ p.operation.named args, ∃ fault, m.store.display depth v = .error fault) ∧
    ((∃ m', applyPrimitive depth p args m = .error .outOfRange m') ↔
      p.operation.Overflows args) ∧
    (∀ fault m', applyPrimitive depth p args m = .error fault m' →
      (p.operation.IsRefusal fault ∨ IsLimit fault ∨ fault = .outOfRange) ∧
        m'.store = m.store) ∧
    ∀ v m', applyPrimitive depth p args m = .ok v m' →
      p.operation.Leaves m.store args v m'.store := by
  have hverdict := verdict_of_mem_standardPrimitives hp hcount depth m
  refine ⟨hverdict.refused_iff, hverdict.limited_iff, hverdict.overflow_iff,
    fun fault m' hfail => ?_, fun v m' hok => ?_⟩
  · rw [hfail] at hverdict
    exact hverdict.of_error
  · rw [hok] at hverdict
    exact hverdict.of_ok

/-- The first field of a symbol is refused, and the second field of a pair can
be replaced. -/
theorem primitive_calls_end_symbol :
    (⟨"car", 1, .car⟩ ∈ standardPrimitives ∧ ⟨"set-cdr!", 2, .setCdr⟩ ∈ standardPrimitives) ∧
    (∃ fault m', applyPrimitive 9 ⟨"car", 1, Operation.car⟩ [.symbol "x"] {} = .error fault m' ∧
      Operation.car.IsRefusal fault) ∧
    ∃ m', applyPrimitive 9 ⟨"set-cdr!", 2, Operation.setCdr⟩ [.pair 0, .nil]
        ⟨{ cells := #[⟨.nil, .boolean true⟩] }, none⟩ = .ok (.pair 0) m' ∧
      Operation.setCdr.Leaves { cells := #[⟨.nil, .boolean true⟩] } [.pair 0, .nil] (.pair 0)
        m'.store := by
  have hcar : ⟨"car", 1, .car⟩ ∈ standardPrimitives := by decide
  have hsetCdr : ⟨"set-cdr!", 2, .setCdr⟩ ∈ standardPrimitives := by decide
  refine ⟨⟨hcar, hsetCdr⟩, ?_, _, rfl, ?_⟩
  · refine (primitive_calls_end hcar rfl 9 {}).1.mpr ⟨⟨_, rfl, rfl⟩, fun v hv => ?_⟩
    obtain rfl := List.mem_singleton.mp hv
    exact ⟨_, rfl⟩
  · exact (primitive_calls_end hsetCdr rfl 9
      ⟨{ cells := #[⟨.nil, .boolean true⟩] }, none⟩).2.2.2.2 _ _ rfl

theorem Store.display_of_large {s : Store} {n : Int} (h : ¬n.natAbs < tooManyDigits)
    (depth : Nat) : s.display (depth + 1) (.number (.int n)) = .error .tooManyDigits := by
  have htext : (Number.int n).text? = none := by rw [Number.text?, if_neg h]
  show s.writeValue (s.writeTo depth) ∅ "" (.number (.int n)) = _
  rw [writeValue, htext]

/-- The first field of an integer with too many digits: the argument has the
wrong type, and the call is not refused. -/
theorem car_of_tooManyDigits :
    ⟨"car", 1, .car⟩ ∈ standardPrimitives ∧
    Operation.car.IllTyped {} [.number (.int tooManyDigits)] ∧
    ¬∃ fault m', applyPrimitive 9 ⟨"car", 1, Operation.car⟩ [.number (.int tooManyDigits)] {}
        = .error fault m' ∧ Operation.car.IsRefusal fault := by
  have hcar : ⟨"car", 1, .car⟩ ∈ standardPrimitives := by decide
  have hlarge : ¬(tooManyDigits : Int).natAbs < tooManyDigits := by
    rw [Int.natAbs_natCast]
    exact Nat.lt_irrefl _
  refine ⟨hcar, ⟨_, rfl, rfl⟩, ?_⟩
  rw [(verdict_of_mem_standardPrimitives hcar rfl 9 {}).refused_iff]
  rintro ⟨-, hshown⟩
  obtain ⟨text, htext⟩ := hshown _ List.mem_cons_self
  cases htext.symm.trans (Store.display_of_large hlarge 8)

end MiniScheme
