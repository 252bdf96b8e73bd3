import MiniScheme.Proofs.Correspondence
import MiniScheme.Proofs.Printing

/-!
# `MiniScheme.Proofs.CorrespondingTexts`: values that correspond have one text

A text shows no places of objects, so values that correspond are printed
alike. The printer compares pairs with those that are active, which is why
every pair may correspond to one other at most. It also counts pairs, and the
stores have different numbers of them; neither count runs out
(`Store.HasActive`).
-/

set_option autoImplicit false

namespace MiniScheme.Correspondence

variable {opened : Bool} {F : Type} {p : Correspondence opened F} {v v' w w' : Value}

/-! ### Kinds of values -/

/-- A value that is no pair corresponds to one that is none. -/
theorem Like.single (h : p.Like v v') (hv : ∀ r, v ≠ .pair r) : ∀ r, v' ≠ .pair r := by
  cases h with
  | pair twin => exact absurd rfl (hv _)
  | atom => exact hv
  | _ => simp

/-- A value corresponds to one other at most, since objects do. -/
theorem Lawful.like_unique (hp : p.Lawful) : Relator.BiUnique p.Like := by
  constructor
  · intro v v' w h k
    cases h with
    | atom simple =>
        cases k with
        | atom | primitive => rfl
        | pair | vector | closure => exact simple.elim
    | primitive => cases k <;> rfl
    | pair twin =>
        cases k with
        | atom simple => exact simple.elim
        | pair twin' => rw [hp.cells_unique.1 twin twin']
    | vector twin =>
        cases k with
        | atom simple => exact simple.elim
        | vector twin' => rw [hp.vectors_unique.1 twin twin']
    | closure twin =>
        cases k with
        | atom simple => exact simple.elim
        | closure twin' => rw [hp.closures_unique.1 twin twin']
  · intro v v' w h k
    cases h with
    | atom simple =>
        cases k with
        | atom | primitive => rfl
        | pair | vector | closure => exact simple.elim
    | primitive => cases k <;> rfl
    | pair twin =>
        cases k with
        | atom simple => exact simple.elim
        | pair twin' => rw [hp.cells_unique.2 twin twin']
    | vector twin =>
        cases k with
        | atom simple => exact simple.elim
        | vector twin' => rw [hp.vectors_unique.2 twin twin']
    | closure twin =>
        cases k with
        | atom simple => exact simple.elim
        | closure twin' => rw [hp.closures_unique.2 twin twin']

/-- Two values are the same object on both sides, or on neither. -/
theorem Lawful.eq_iff (hp : p.Lawful) (h : p.Like v v') (k : p.Like w w') : v = w ↔ v' = w' :=
  Relator.rel_eq hp.like_unique h k

theorem Lawful.eq_atom_iff (hp : p.Lawful) (h : p.Like v v') {a : Value} (ha : a.IsAtom) :
    v = a ↔ v' = a :=
  hp.eq_iff h (.atom ha)

/-! ### Pairs that are active -/

/-- Of two pairs that correspond, both are active or neither is. -/
def LikeActive (p : Correspondence opened F) (active active' : Active) : Prop :=
  ∀ r q, p.cells r q → (r ∈ active ↔ q ∈ active')

theorem likeActive_empty (p : Correspondence opened F) : p.LikeActive ∅ ∅ := by
  intro r q _
  simp

theorem Lawful.likeActive_insert (hp : p.Lawful) {active active' : Active}
    (h : p.LikeActive active active') {r q : Ref} (twin : p.cells r q) :
    p.LikeActive (active.insert r) (active'.insert q) := by
  intro r' q' twin'
  have hsame : r = r' ↔ q = q' := Relator.rel_eq hp.cells_unique twin twin'
  have hold := h r' q' twin'
  simp only [Std.TreeSet.mem_insert, Std.LawfulEqCmp.compare_eq_iff_eq]
  rw [hsame, hold]

/-- Both values are pairs that are not active, with fields that correspond, or
neither is one. -/
theorem Lawful.inactive?_cases (hp : p.Lawful) {active active' : Active}
    (hactive : p.LikeActive active active') (h : p.Like v v') :
    (p.left.inactive? active v = none ∧ p.right.inactive? active' v' = none) ∨
    ∃ r q c d, p.cells r q ∧ p.left.inactive? active v = some (r, c) ∧
      p.right.inactive? active' v' = some (q, d) ∧ p.Like c.car d.car ∧ p.Like c.cdr d.cdr := by
  cases h with
  | @pair r q twin =>
      obtain ⟨c, d, hc, hd, hcar, hcdr, -⟩ := hp.cell r q twin
      have hsame := hactive r q twin
      by_cases hr : r ∈ active
      · left
        simp [Store.inactive?, hr, hsame.mp hr]
      · right
        have hq : q ∉ active' := fun hq => hr (hsame.mpr hq)
        exact ⟨r, q, c, d, twin, by simp [Store.inactive?, hr, hc],
          by simp [Store.inactive?, hq, hd], hcar, hcdr⟩
  | atom simple =>
      left
      cases v with
      | pair => exact simple.elim
      | _ => exact ⟨rfl, rfl⟩
  | _ => exact .inl ⟨rfl, rfl⟩

/-! ### The printer -/

/-- The writers add the same text for values that correspond. -/
def LikeWriters (p : Correspondence opened F) (element element' : Writer) : Prop :=
  ∀ active active' out v v', p.LikeActive active active' → p.Like v v' →
    element active out v = element' active' out v'

variable {element element' : Writer}

theorem Lawful.writeRest_eq (hp : p.Lawful) (he : p.LikeWriters element element') (fuel : Nat) :
    ∀ {fuel' n n' : Nat} {active active' : Active} (out : String) {v v' : Value},
      p.LikeActive active active' → p.Like v v' →
      p.left.HasActive active n → p.left.cells.size < n + fuel →
      p.right.HasActive active' n' → p.right.cells.size < n' + fuel' →
      p.left.writeRest element fuel active out v
        = p.right.writeRest element' fuel' active' out v' := by
  -- Every pair that is counted becomes active on its side, so no count runs out.
  induction fuel with
  | zero =>
      intro fuel' n n' active active' out v v' _ _ hcount hfuel
      have hle := hcount.le
      omega
  | succ fuel ih =>
      intro fuel' n n' active active' out v v' hactive hlike hcount hfuel hcount' hfuel'
      obtain ⟨fuel', rfl⟩ : ∃ e, fuel' = e + 1 := ⟨fuel' - 1, by have := hcount'.le; omega⟩
      rw [Store.writeRest, Store.writeRest]
      obtain ⟨hnone, hnone'⟩ | ⟨r, q, c, d, twin, hr, hq, hcar, hcdr⟩ :=
        hp.inactive?_cases hactive hlike
      · rw [hnone, hnone']
        dsimp only
        have hnil := hp.eq_atom_iff hlike (a := .nil) trivial
        by_cases hv : v = .nil
        · rw [if_pos hv, if_pos (hnil.mp hv)]
        · rw [if_neg hv, if_neg fun hv' => hv (hnil.mpr hv'), he _ _ _ _ _ hactive hlike]
      · rw [hr, hq]
        dsimp only
        have hactive' := hp.likeActive_insert hactive twin
        rw [he _ _ _ _ _ hactive' hcar]
        refine congrArg _ (funext fun out => ?_)
        exact ih out hactive' hcdr (hcount.insert hr) (by omega) (hcount'.insert hq) (by omega)

theorem writeItems_eq (he : p.LikeWriters element element') {active active' : Active}
    (hactive : p.LikeActive active active') {items items' : List Value}
    (h : List.Forall₂ p.Like items items') : ∀ out : String,
      Store.writeItems element active out items = Store.writeItems element' active' out items' := by
  induction h with
  | nil => intro out; rfl
  | @cons v v' items items' hv hitems ih =>
      intro out
      cases hitems with
      | nil => exact he _ _ _ _ _ hactive hv
      | cons =>
          show (element active out v >>= fun out => _) = (element' active' out v' >>= fun out => _)
          rw [he _ _ _ _ _ hactive hv]
          exact congrArg _ (funext fun out => ih _)

theorem Lawful.writeValue_eq (hp : p.Lawful) (he : p.LikeWriters element element') :
    p.LikeWriters (p.left.writeValue element) (p.right.writeValue element') := by
  intro active active' out v v' hactive hlike
  have hcases := hp.inactive?_cases hactive hlike
  cases hlike with
  | atom simple =>
      cases v with
      | pair | vector | closure | primitive => exact simple.elim
      | _ => rfl
  | primitive r => rw [Store.writeValue, Store.writeValue, hp.primitives]
  | pair twin =>
      rw [Store.writeValue, Store.writeValue]
      obtain ⟨hnone, hnone'⟩ | ⟨r, q, c, d, twin, hr, hq, hcar, hcdr⟩ := hcases
      · rw [hnone, hnone']
      · rw [hr, hq]
        dsimp only
        have hactive' := hp.likeActive_insert hactive twin
        rw [he _ _ _ _ _ hactive' hcar]
        refine congrArg _ (funext fun out => ?_)
        exact hp.writeRest_eq he _ out hactive' hcdr ((Store.HasActive.zero _ active).insert hr)
          (by omega) ((Store.HasActive.zero _ active').insert hq) (by omega)
  | vector twin =>
      obtain ⟨items, items', hitems, hitems', hforall, -⟩ := hp.vector _ _ twin
      rw [Store.writeValue, Store.writeValue, hitems, hitems']
      dsimp only [Option.getD_some]
      rw [writeItems_eq he hactive hforall]
  | closure twin =>
      obtain ⟨k, k', hk, hk', hformals⟩ := hp.formals _ _ twin
      rw [Store.writeValue, Store.writeValue, hk, hk']
      dsimp only
      rw [he _ _ _ _ _ (likeActive_empty p) hformals]

theorem Lawful.writeTo_eq (hp : p.Lawful) (depth : Nat) :
    p.LikeWriters (p.left.writeTo depth) (p.right.writeTo depth) := by
  induction depth with
  | zero => exact fun _ _ _ _ _ _ _ => rfl
  | succ depth ih => exact hp.writeValue_eq ih

/-- Values that correspond are written alike. -/
theorem Lawful.write_eq (hp : p.Lawful) (depth : Nat) (h : p.Like v v') :
    p.left.write depth v = p.right.write depth v' :=
  hp.writeTo_eq depth _ _ _ _ _ (likeActive_empty p) h

theorem mapM_eq {α β : Type} {f g : α → Except Fault β} {R : α → α → Prop}
    (hfg : ∀ a b, R a b → f a = g b) {items items' : List α} (h : List.Forall₂ R items items') :
    items.mapM f = items'.mapM g := by
  induction h with
  | nil => rfl
  | cons hab _ ih => rw [List.mapM_cons, List.mapM_cons, hfg _ _ hab, ih]

theorem Lawful.inspect_eq (hp : p.Lawful) (depth : Nat) :
    ∀ {v v' : Value}, p.Like v v' → p.left.inspect depth v = p.right.inspect depth v' := by
  induction depth with
  | zero => exact fun _ => rfl
  | succ depth ih =>
      intro v v' h
      -- Only vectors are inspected element by element.
      have hwrite := hp.write_eq (depth + 1) h
      cases h with
      | atom simple =>
          cases v with
          | text | symbol => rfl
          | pair | vector => exact simple.elim
          | _ => exact hwrite
      | vector twin =>
          obtain ⟨items, items', hitems, hitems', hforall, -⟩ := hp.vector _ _ twin
          rw [Store.inspect, Store.inspect, hitems, hitems']
          have hmap : items.mapM (p.left.inspect depth) = items'.mapM (p.right.inspect depth) :=
            mapM_eq (fun _ _ hlike => ih hlike) hforall
          dsimp only [Option.getD_some]
          rw [hmap]
      | _ => exact hwrite

/-- Values that correspond look alike in messages. -/
theorem Lawful.display_eq (hp : p.Lawful) (depth : Nat) (h : p.Like v v') :
    p.left.display depth v = p.right.display depth v' := by
  have hinspect := hp.inspect_eq depth h
  cases h with
  | atom simple =>
      cases v with
      | text | symbol => rfl
      | _ => exact hinspect
  | _ => exact hinspect

/-- Frames with the same names for values that correspond look alike. -/
theorem Lawful.showFrame_eq (hp : p.Lawful) (depth : Nat) {r q o o' : Ref}
    {bindings bindings' : List (String × Value)}
    (hr : p.left.frames[r]? = some ⟨bindings, some o⟩)
    (hq : p.right.frames[q]? = some ⟨bindings', some o'⟩)
    (h : List.Forall₂ (fun b b' => b.1 = b'.1 ∧ p.Like b.2 b'.2) bindings bindings') :
    p.left.showFrame depth r = p.right.showFrame depth q := by
  have hbindings : p.left.showBindings depth ⟨bindings, some o⟩
      = p.right.showBindings depth ⟨bindings', some o'⟩ := by
    refine congrArg₂ Bind.bind (mapM_eq (fun b b' hb => ?_) h) rfl
    obtain ⟨name, v⟩ := b
    obtain ⟨name', v'⟩ := b'
    obtain ⟨hname, hv⟩ := hb
    cases hname
    dsimp only
    rw [hp.inspect_eq depth hv]
  rw [Store.showFrame, Store.showFrame, hr, hq]
  dsimp only
  rw [hbindings]
  rfl

end MiniScheme.Correspondence
