import MiniScheme.Proofs.Actions
import MiniScheme.Proofs.CorrespondenceUpdates

/-!
# `MiniScheme.Proofs.SideBySide`: computations side by side

Two computations tally (`Tallies`) if, from machines whose stores correspond,
they end in the same fault or in results that are related, and in machines whose
stores correspond again. Journals may differ in what they say, as long as both
are kept or neither.

Steps on data leave a wider correspondence of data. An evaluation needs more: it
has to know which environments go together, and which code. So the rules are
stated for every kind of correspondence that has one of data as its base
(`Pairing`).
-/

set_option autoImplicit false

namespace MiniScheme

/-- A kind of correspondence: it has one of data as its base, and laws of its
own. -/
class Pairing (P : Type) (opened : outParam Bool) (F : outParam Type) extends Preorder P where
  base : P → Correspondence opened F
  Lawful : P → Prop
  lawful_base {p : P} : Lawful p → (base p).Lawful

instance (opened : Bool) (F : Type) : Pairing (Correspondence opened F) opened F where
  base p := p
  Lawful := Correspondence.Lawful
  lawful_base h := h

section

variable {P : Type} {opened : Bool} {F : Type} [Pairing P opened F] {p p' : P} {α β γ δ : Type}

/-- The machines have the two stores. -/
structure Beside (p : P) (m m' : Machine F) : Prop where
  left : m.store = (Pairing.base p).left
  right : m'.store = (Pairing.base p).right
  lawful : Pairing.Lawful p
  journals : m.journal.isSome = m'.journal.isSome

/-- Both results are the same fault, or values that are related, in machines
that a later correspondence has. -/
inductive Ends (p : P) (Q : P → α → β → Prop) :
    EStateM.Result Fault (Machine F) α → EStateM.Result Fault (Machine F) β → Prop
  | ok {p' : P} {a : α} {b : β} {m m' : Machine F} (later : p ≤ p') (here : Beside p' m m')
      (holds : Q p' a b) : Ends p Q (.ok a m) (.ok b m')
  | error {p' : P} {fault : Fault} {m m' : Machine F} (later : p ≤ p') (here : Beside p' m m') :
      Ends p Q (.error fault m) (.error fault m')

/-- From machines with the two stores, the computations end alike. -/
def Tallies (p : P) (x : EvalOn F α) (y : EvalOn F β) (Q : P → α → β → Prop) : Prop :=
  ∀ m m', Beside p m m' → Ends p Q (x m) (y m')

theorem Ends.mono {Q : P → α → β → Prop} (hle : p ≤ p')
    {x : EStateM.Result Fault (Machine F) α} {y : EStateM.Result Fault (Machine F) β}
    (h : Ends p' Q x y) : Ends p Q x y := by
  cases h with
  | ok later here holds => exact .ok (hle.trans later) here holds
  | error later here => exact .error (hle.trans later) here

/-- Runs that end alike leave machines that correspond. -/
theorem Ends.exists_beside {Q : P → α → β → Prop} {x : EStateM.Result Fault (Machine F) α}
    {y : EStateM.Result Fault (Machine F) β} (h : Ends p Q x y) :
    ∃ p', p ≤ p' ∧ Beside p' (outcome x) (outcome y) := by
  cases h with
  | ok later here holds => exact ⟨_, later, here⟩
  | error later here => exact ⟨_, later, here⟩

/-! ### Rules -/

namespace Tallies

variable {Q : P → α → β → Prop} {Q' : P → γ → δ → Prop}

theorem of_lawful {x : EvalOn F α} {y : EvalOn F β} (h : Pairing.Lawful p → Tallies p x y Q) :
    Tallies p x y Q :=
  fun m m' hat => h hat.lawful m m' hat

protected theorem pure {a : α} {b : β} (h : Q p a b) :
    Tallies p (pure a : EvalOn F α) (pure b : EvalOn F β) Q :=
  fun _ _ hat => .ok (le_refl p) hat h

theorem throw (fault : Fault) :
    Tallies p (throw fault : EvalOn F α) (throw fault : EvalOn F β) Q :=
  fun _ _ hat => .error (le_refl p) hat

protected theorem bind {x : EvalOn F α} {y : EvalOn F β} {f : α → EvalOn F γ} {g : β → EvalOn F δ}
    (hx : Tallies p x y Q) (hf : ∀ p', p ≤ p' → ∀ a b, Q p' a b → Tallies p' (f a) (g b) Q') :
    Tallies p (x >>= f) (y >>= g) Q' := by
  intro m m' hat
  have hends := hx m m' hat
  rw [bind_run, bind_run]
  generalize x m = result, y m' = result' at hends ⊢
  cases hends with
  | ok later here holds => exact (hf _ later _ _ holds _ _ here).mono later
  | error later here => exact .error later here

theorem weaken {x : EvalOn F α} {y : EvalOn F β} {R : P → α → β → Prop} (h : Tallies p x y Q)
    (hQ : ∀ p' a b, Q p' a b → R p' a b) : Tallies p x y R := by
  intro m m' hat
  have hends := h m m' hat
  generalize x m = result, y m' = result' at hends ⊢
  cases hends with
  | ok later here holds => exact .ok later here (hQ _ _ _ holds)
  | error later here => exact .error later here

/-- Reading the stores changes nothing. -/
theorem inquire_bind {f : Store F → α} {g : Store F → β} {k : α → EvalOn F γ}
    {k' : β → EvalOn F δ}
    (h : Tallies p (k (f (Pairing.base p).left)) (k' (g (Pairing.base p).right)) Q') :
    Tallies p (inquire f >>= k) (inquire g >>= k') Q' := by
  intro m m' hat
  rw [inquire_bind_run, inquire_bind_run, hat.left, hat.right]
  exact h m m' hat

/-- The same text, or the same fault, on both sides. -/
theorem examine_bind {f g : Store F → Except Fault α} {k : α → EvalOn F γ} {k' : α → EvalOn F δ}
    (h : f (Pairing.base p).left = g (Pairing.base p).right)
    (hk : ∀ a, Tallies p (k a) (k' a) Q') :
    Tallies p (examine f >>= k) (examine g >>= k') Q' := by
  intro m m' hat
  rw [bind_run, bind_run]
  unfold examine
  rw [hat.left, hat.right, ← h]
  cases f (Pairing.base p).left with
  | ok a => exact hk a m m' hat
  | error fault => exact .error (le_refl p) hat

theorem change {f : Store F → α × Store F} {g : Store F → β × Store F} (hle : p ≤ p')
    (hlawful : Pairing.Lawful p') (hleft : (f (Pairing.base p).left).2 = (Pairing.base p').left)
    (hright : (g (Pairing.base p).right).2 = (Pairing.base p').right)
    (h : Q p' (f (Pairing.base p).left).1 (g (Pairing.base p).right).1) :
    Tallies p (change f) (change g) Q := by
  rintro ⟨s, journal⟩ ⟨s', journal'⟩ hat
  obtain rfl : s = (Pairing.base p).left := hat.left
  obtain rfl : s' = (Pairing.base p).right := hat.right
  exact .ok hle ⟨hleft, hright, hlawful, hat.journals⟩ h

/-- An event is nested too deeply on both sides, or on neither. Other events
make no difference. -/
theorem note {f g : Store F → Except Fault Event}
    (h : f (Pairing.base p).left = .error .tooDeep ↔ g (Pairing.base p).right = .error .tooDeep) :
    Tallies p (note f) (note g) fun _ _ _ => True := by
  intro m m' hat
  obtain ⟨s, journal⟩ := m
  obtain ⟨s', journal'⟩ := m'
  obtain ⟨rfl, rfl, hlawful, hjournals⟩ := hat
  have hat (journal journal' : Option (List Event)) (h : journal.isSome = journal'.isSome) :
      Beside p ⟨(Pairing.base p).left, journal⟩ ⟨(Pairing.base p).right, journal'⟩ :=
    ⟨rfl, rfl, hlawful, h⟩
  unfold MiniScheme.note
  cases journal with
  | none =>
      cases journal' with
      | none => exact .ok (le_refl p) (hat _ _ rfl) trivial
      | some events' => cases hjournals
  | some events =>
      cases journal' with
      | none => cases hjournals
      | some events' =>
          dsimp only
          by_cases hdeep : f (Pairing.base p).left = .error .tooDeep
          · rw [hdeep, h.mp hdeep]
            exact .error (le_refl p) (hat _ _ rfl)
          · have hdeep' : g (Pairing.base p).right ≠ .error .tooDeep := fun hg => hdeep (h.mpr hg)
            split <;> split <;> simp_all
            all_goals exact .ok (le_refl p) (hat _ _ rfl) trivial

theorem ok_bind_eq_error_iff {x : Except Fault α} {f : α → β} {fault : Fault} :
    (x >>= fun a => .ok (f a)) = .error fault ↔ x = .error fault := by
  cases x with
  | ok a => exact ⟨by rintro ⟨⟩, by rintro ⟨⟩⟩
  | error fault' => exact ⟨by rintro ⟨⟩; rfl, by rintro ⟨⟩; rfl⟩

/-- An event that shows the same text on both sides. -/
theorem note_text {f g : Store F → Except Fault String} {event event' : String → Event}
    (h : f (Pairing.base p).left = g (Pairing.base p).right) :
    Tallies p (MiniScheme.note fun s => do let shown ← f s; .ok (event shown))
      (MiniScheme.note fun s => do let shown ← g s; .ok (event' shown)) fun _ _ _ => True :=
  note (by rw [ok_bind_eq_error_iff, ok_bind_eq_error_iff, h])

end Tallies

/-! ### Faults that show a value -/

variable {v v' : Value} {Q : P → α → β → Prop} {Q' : P → γ → δ → Prop}

theorem tallies_failShowing (depth : Nat) (fault : String → Fault)
    (h : (Pairing.base p).Like v v') :
    Tallies p (failShowing depth fault v : EvalOn F α) (failShowing depth fault v' : EvalOn F β)
      Q :=
  .of_lawful fun hp =>
    .examine_bind ((Pairing.lawful_base hp).display_eq depth h) fun _ => .throw _

/-- Nothing comes after a fault. -/
theorem tallies_failShowing_bind (depth : Nat) (fault : String → Fault)
    (h : (Pairing.base p).Like v v') {k : α → EvalOn F γ} {k' : β → EvalOn F δ} :
    Tallies p (failShowing depth fault v >>= k) (failShowing depth fault v' >>= k') Q' :=
  (tallies_failShowing depth fault h).bind (Q := fun _ _ _ => False) fun _ _ _ _ h => h.elim

theorem tallies_refuse (depth : Nat) (h : (Pairing.base p).Like v v')
    {Q : P → Value → Value → Prop} : Tallies p (refuse depth v) (refuse depth v') Q :=
  .of_lawful fun hp =>
    .examine_bind ((Pairing.lawful_base hp).inspect_eq depth h) fun _ => .throw _

end

end MiniScheme
