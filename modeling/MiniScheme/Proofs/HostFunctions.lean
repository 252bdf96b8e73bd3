import MiniScheme.Proofs.SideBySide

/-!
# `MiniScheme.Proofs.HostFunctions`: functions that treat references uniformly

What a primitive does with its arguments is up to the host. It can be any
function; the ones of interest here are `Uniform`. Such a function sees values
through the store only: it can take pairs and vectors apart, compare values,
print them, make new objects and change pairs, but it cannot tell where an object
is, and it reads no variable and no code. So from two stores with data that
correspond it ends alike.

The built-in operations are uniform (`Operation.uniform`).
-/

set_option autoImplicit false

namespace MiniScheme

/-- The function of the host ends alike on arguments that correspond, whatever
the stores are: in the same fault, or in results that correspond. Pairs and
vectors of the two stores may have been made or changed, but in the same way,
and variables, closures and code are as they were. The mark says whether it may
open vectors. -/
def Uniform {F : Type} [HostFunctions F] (opened : Bool) (f : F) : Prop :=
  ∀ (depth : Nat) (p : Correspondence opened F) (args args' : List Value),
    List.Forall₂ p.LikeData args args' →
      Tallies p (HostFunctions.run depth f args) (HostFunctions.run depth f args')
        Correspondence.LikeData

namespace Correspondence

variable {opened : Bool} {F : Type} {p : Correspondence opened F} {v v' : Value} {α β γ δ : Type}
  {Q' : Correspondence opened F → γ → δ → Prop}

/-! ### The built-in operations -/

theorem tallies_inquire_bind {f : Store F → α} {g : Store F → β} {k : α → EvalOn F γ}
    {k' : β → EvalOn F δ} (h : Tallies p (k (f p.left)) (k' (g p.right)) Q') :
    Tallies p (inquire f >>= k) (inquire g >>= k') Q' :=
  .inquire_bind h

theorem tallies_pairArgument_bind (depth : Nat) (op : Operation) (h : p.LikeData v v')
    {k : Ref × Cell → EvalOn F γ} {k' : Ref × Cell → EvalOn F δ}
    (hk : ∀ r q c d, v = .pair r → v' = .pair q → p.cells r q → ¬ p.leftCode r →
      p.LikeData c.car d.car → p.LikeData c.cdr d.cdr → Tallies p (k (r, c)) (k' (q, d)) Q') :
    Tallies p (op.pairArgument depth v >>= k) (op.pairArgument depth v' >>= k') Q' := by
  refine .of_lawful fun hp => ?_
  unfold Operation.pairArgument
  rw [bind_assoc, bind_assoc]
  refine tallies_inquire_bind ?_
  obtain ⟨like, free⟩ := h
  cases like with
  | @pair r q twin =>
      obtain ⟨c, d, hc, hd, hcar, hcdr, hfree⟩ := hp.cell r q twin
      have hdata := (free r rfl).2
      have hcell : p.left.cell? (.pair r) = some c := hc
      have hcell' : p.right.cell? (.pair q) = some d := hd
      rw [hcell, hcell']
      exact hk r q c d rfl rfl twin hdata ⟨hcar, (hfree hdata).1⟩ ⟨hcdr, (hfree hdata).2⟩
  | @atom v simple =>
      cases v with
      | pair => exact simple.elim
      | _ => exact tallies_failShowing_bind depth _ (.atom simple)
  | vector twin => exact tallies_failShowing_bind depth _ (.vector twin)
  | closure twin => exact tallies_failShowing_bind depth _ (.closure twin)
  | primitive r => exact tallies_failShowing_bind depth _ (.primitive r)

theorem tallies_numberArguments_bind (depth : Nat) (op : Operation) {a a' b b' : Value}
    (ha : p.Like a a') (hb : p.Like b b') {k : Number × Number → EvalOn F γ}
    {k' : Number × Number → EvalOn F δ} (hk : ∀ m n, Tallies p (k (m, n)) (k' (m, n)) Q') :
    Tallies p (op.numberArguments depth a b >>= k) (op.numberArguments depth a' b' >>= k') Q' := by
  refine .of_lawful fun hp => ?_
  have hnumber (n : Number) := hp.eq_atom_iff ha (a := .number n) trivial
  have hnumber' (n : Number) := hp.eq_atom_iff hb (a := .number n) trivial
  unfold Operation.numberArguments
  split
  · rename_i m n
    rw [(hnumber m).mp rfl, (hnumber' n).mp rfl]
    exact hk m n
  · rename_i hleft
    split
    · rename_i m n
      exact absurd ((hnumber' n).mpr rfl) (hleft m n ((hnumber m).mpr rfl))
    · rw [bind_assoc, bind_assoc]
      refine .examine_bind (hp.display_eq depth ha) fun _ => ?_
      rw [bind_assoc, bind_assoc]
      exact .examine_bind (hp.display_eq depth hb) fun _ => .throw _

theorem tallies_arithmetic (depth : Nat) (op : Operation) (f : Number → Number → Option Number)
    {a a' b b' : Value} (ha : p.LikeData a a') (hb : p.LikeData b b') :
    Tallies p (op.arithmetic depth f a b) (op.arithmetic depth f a' b') LikeData := by
  refine tallies_numberArguments_bind depth op ha.like hb.like fun m n => ?_
  dsimp only
  cases f m n with
  | some r => exact .pure (.atom trivial)
  | none => exact .throw _

theorem tallies_comparison (depth : Nat) (op : Operation) (f : Number → Number → Bool)
    {a a' b b' : Value} (ha : p.LikeData a a') (hb : p.LikeData b b') :
    Tallies p (op.comparison depth f a b) (op.comparison depth f a' b') LikeData :=
  tallies_numberArguments_bind depth op ha.like hb.like fun _ _ => .pure (.atom trivial)

theorem Lawful.sameObject_eq (hp : p.Lawful) {a a' b b' : Value} (ha : p.Like a a')
    (hb : p.Like b b') : Operation.sameObject a b = Operation.sameObject a' b' := by
  have hnumber (n : Number) := hp.eq_atom_iff ha (a := .number n) trivial
  have hnumber' (n : Number) := hp.eq_atom_iff hb (a := .number n) trivial
  unfold Operation.sameObject
  split
  · rename_i m n
    rw [(hnumber m).mp rfl, (hnumber' n).mp rfl]
  · rename_i hleft
    split
    · rename_i m n
      exact absurd ((hnumber' n).mpr rfl) (hleft m n ((hnumber m).mpr rfl))
    · rw [decide_eq_decide]
      exact hp.eq_iff ha hb

theorem Like.symbolic_eq (h : p.Like v v') : Operation.symbolic v = Operation.symbolic v' := by
  cases h <;> rfl

theorem Lawful.isSome_cell?_eq (hp : p.Lawful) (h : p.Like v v') :
    (p.left.cell? v).isSome = (p.right.cell? v').isSome := by
  cases h with
  | @pair r q twin =>
      obtain ⟨c, d, hc, hd, -⟩ := hp.cell r q twin
      simp [Store.cell?, hc, hd]
  | @atom v simple =>
      cases v with
      | pair => exact simple.elim
      | _ => rfl
  | _ => rfl

theorem tallies_cons {a a' d d' : Value} (ha : p.LikeData a a') (hd : p.LikeData d d') :
    Tallies p (change fun s => s.cons a d) (change fun s => s.cons a' d') LikeData :=
  .of_lawful fun hp =>
    .change (hp.widens_cons False _ _) (hp.likeData_cons ha hd).1 rfl rfl (hp.likeData_cons ha hd).2

/-- An operation on one value does the same on both sides. -/
theorem tallies_operation_one (depth : Nat) (op : Operation) {a a' : Value}
    (ha : p.LikeData a a') : Tallies p (op.run depth [a]) (op.run depth [a']) LikeData := by
  refine .of_lawful fun hp => ?_
  cases op with
  | cons => exact tallies_cons ha (.atom trivial)
  | car => exact tallies_pairArgument_bind depth _ ha fun _ _ _ _ _ _ _ _ hcar _ => .pure hcar
  | cdr => exact tallies_pairArgument_bind depth _ ha fun _ _ _ _ _ _ _ _ _ hcdr => .pure hcdr
  | isPair =>
      refine fun m m' hat => .ok (le_refl p) hat ?_
      have hleft : m.store = p.left := hat.left
      have hright : m'.store = p.right := hat.right
      rw [hleft, hright]
      dsimp only
      rw [hp.isSome_cell?_eq ha.like]
      exact .atom trivial
  | isNull =>
      refine .pure ?_
      rw [decide_eq_decide.mpr (hp.eq_atom_iff ha.like (a := .nil) trivial)]
      exact .atom trivial
  | isSymbol =>
      refine .pure ?_
      rw [ha.like.symbolic_eq]
      exact .atom trivial
  | _ => exact .throw _

/-- An operation on two values does the same on both sides. -/
theorem tallies_operation_two (depth : Nat) (op : Operation) {a a' b b' : Value}
    (ha : p.LikeData a a') (hb : p.LikeData b b') :
    Tallies p (op.run depth [a, b]) (op.run depth [a', b']) LikeData := by
  refine .of_lawful fun hp => ?_
  cases op with
  | cons => exact tallies_cons ha hb
  | setCar =>
      refine tallies_pairArgument_bind depth _ ha fun r q c d hr hq twin hdata _ _ => ?_
      obtain ⟨hle, hlawful⟩ := hp.modify twin hdata (f := fun c => { c with car := b })
        (g := fun d => { d with car := b' }) fun _ _ _ hcdr => ⟨hb, hcdr⟩
      exact .change hle hlawful rfl rfl (ha.mono hle.toGrows)
  | setCdr =>
      refine tallies_pairArgument_bind depth _ ha fun r q c d hr hq twin hdata _ _ => ?_
      obtain ⟨hle, hlawful⟩ := hp.modify twin hdata (f := fun c => { c with cdr := b })
        (g := fun d => { d with cdr := b' }) fun _ _ hcar _ => ⟨hcar, hb⟩
      exact .change hle hlawful rfl rfl (ha.mono hle.toGrows)
  | add | sub | mul => exact tallies_arithmetic depth _ _ ha hb
  | equal | less | greater => exact tallies_comparison depth _ _ ha hb
  | same =>
      refine .pure ?_
      rw [hp.sameObject_eq ha.like hb.like]
      exact .atom trivial
  | _ => exact .throw _

/-- An operation does the same on both sides, whatever the functions of the
host are. -/
theorem tallies_operation (depth : Nat) (op : Operation) {args args' : List Value}
    (h : List.Forall₂ p.LikeData args args') :
    Tallies p (op.run depth args) (op.run depth args') LikeData := by
  cases h with
  | nil => cases op <;> exact .throw _
  | cons ha h =>
      cases h with
      | nil => exact tallies_operation_one depth op ha
      | cons hb h =>
          cases h with
          | nil => exact tallies_operation_two depth op ha hb
          | cons _ h =>
              -- No operation takes three arguments.
              have hlength := h.length_eq
              cases op <;> simp only [Operation.run, List.length_cons, hlength] <;> exact .throw _

end Correspondence

/-- The built-in operations treat references uniformly. -/
theorem Operation.uniform (opened : Bool) (op : Operation) : Uniform opened op :=
  fun depth _ _ _ h => Correspondence.tallies_operation depth op h

end MiniScheme
