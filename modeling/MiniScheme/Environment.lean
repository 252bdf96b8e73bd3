import MiniScheme.Machine

/-!
# `MiniScheme.Environment`: names and their values

An environment is a frame together with the frames around it, innermost
first. A name means its binding in the first frame that has one.

* `lookup` reads that binding and `assign` replaces its value; neither
  makes a binding.
* `define` binds a name in the frame itself.
* `extend` makes a new frame that pairs formal parameters with values.
-/

set_option autoImplicit false

namespace MiniScheme

namespace Frame

/-- The value of a name. -/
def value? (f : Frame) (name : String) : Option Value := f.bindings.lookup name

/-- The frame binds the name. -/
def binds (f : Frame) (name : String) : Bool := (f.value? name).isSome

/-- Binds a name. A name that was bound before keeps its place. -/
def insert (name : String) (v : Value) : List (String × Value) → List (String × Value)
  | [] => [(name, v)]
  | (other, w) :: rest =>
    if other = name then (name, v) :: rest else (other, w) :: insert name v rest

/-- The frame with a name bound to a value. -/
def bind (f : Frame) (name : String) (v : Value) : Frame :=
  { f with bindings := insert name v f.bindings }

/-- A name that was just bound has the value that it was bound to. -/
@[simp] theorem lookup_insert_self (name : String) (v : Value)
    (bindings : List (String × Value)) :
    (insert name v bindings).lookup name = some v := by
  induction bindings with
  | nil => simp [insert]
  | cons b rest ih =>
      obtain ⟨other, w⟩ := b
      by_cases h : other = name
      · simp [insert, h]
      · have hne : (name == other) = false := by simpa using fun e => h e.symm
        simp [insert, h, hne, List.lookup_cons, ih]

/-- Binding a name leaves the values of all other names alone. -/
theorem lookup_insert_of_ne {name other : String} (h : other ≠ name) (v : Value)
    (bindings : List (String × Value)) :
    (insert name v bindings).lookup other = bindings.lookup other := by
  induction bindings with
  | nil =>
      have hne : (other == name) = false := by simpa using h
      simp [insert, List.lookup_cons, hne]
  | cons b rest ih =>
      obtain ⟨first, w⟩ := b
      by_cases hf : first = name
      · have hne : (other == name) = false := by simpa using h
        subst hf
        simp [insert, List.lookup_cons, hne]
      · by_cases ho : other = first
        · simp [insert, hf, ho]
        · have hne : (other == first) = false := by simpa using ho
          simp [insert, hf, hne, List.lookup_cons, ih]

end Frame

variable {F : Type}

namespace Store

/-! ### Frames -/

/-- A frame and those around it, at most `fuel` of them. -/
def chainFrom (s : Store F) : Nat → Option Ref → List Ref
  | 0, _ => []
  | _, none => []
  | fuel + 1, some r =>
    match s.frames[r]? with
    | some f => r :: chainFrom s fuel f.outer
    | none => []

/-- The frames of an environment, innermost first. -/
def chain (s : Store F) (env : Ref) : List Ref := s.chainFrom s.frames.size (some env)

/-- The frame at a place binds the name. -/
def binds (s : Store F) (name : String) (r : Ref) : Bool :=
  (s.frames[r]?).any fun f => f.binds name

/-- The innermost frame that binds a name. -/
def locate? (s : Store F) (env : Ref) (name : String) : Option Ref :=
  (s.chain env).find? (s.binds name)

/-- How many frames outward the innermost binding of a name lies. -/
def distance? (s : Store F) (env : Ref) (name : String) : Option Nat :=
  (s.chain env).findIdx? (s.binds name)

/-- The value of a name in the frame at a place. -/
def valueAt? (s : Store F) (name : String) (r : Ref) : Option Value :=
  (s.frames[r]?).bind fun f => f.value? name

/-- The value of a name in an environment. -/
def lookup? (s : Store F) (env : Ref) (name : String) : Option Value :=
  (s.locate? env name).bind (s.valueAt? name)

/-- Binds a name in the frame at a place. -/
def bind (s : Store F) (r : Ref) (name : String) (v : Value) : Store F :=
  { s with frames := s.frames.modify r fun f => f.bind name v }

/-! ### Listings -/

/-- The bindings of a frame. -/
def showBindings (s : Store F) (depth : Nat) (f : Frame) : Except Fault String := do
  let items ← f.bindings.mapM fun (name, v) => do
    let shown ← s.inspect depth v
    .ok (name ++ ": " ++ shown)
  .ok ("\x7b" ++ ", ".intercalate items ++ "\x7d")

/-- A frame, with a mark if there is one around it. -/
def showFrame (s : Store F) (depth : Nat) (r : Ref) : Except Fault String :=
  match s.frames[r]? with
  | some f => do
    let shown ← s.showBindings depth f
    .ok (if f.outer.isSome then shown ++ " -> ..." else shown)
  | none => .ok ""

/-- All frames of an environment. -/
def showChain (s : Store F) (depth : Nat) (env : Ref) : Except Fault String := do
  let frames ← (s.chain env).mapM fun r =>
    match s.frames[r]? with
    | some f => s.showBindings depth f
    | none => .ok ""
  .ok ("<Environment chain: " ++ " -> ".intercalate frames ++ ">")

end Store

/-! ### Variables -/

/-- The value of a variable. -/
def lookup (env : Ref) (name : String) : EvalOn F Value := examine fun s =>
  match s.lookup? env name with
  | some v => .ok v
  | none => .error (.unbound name)

/-- Replaces the value of a variable, which has to be bound. -/
def assign (env : Ref) (name : String) (v : Value) : EvalOn F Value := do
  match ← inquire fun s => s.locate? env name with
  | none => throw (.unbound name)
  | some r =>
    change fun s => ((), s.bind r name v)
    note fun _ => .ok (.assigned name r)
    return v

/-- Binds a name in the frame `env`. Only a symbol can be defined. -/
def define (depth : Nat) (env : Ref) (key v : Value) : EvalOn F Unit :=
  match key with
  | .symbol name => change fun s => ((), s.bind env name v)
  | key => failShowing depth .definitionTarget key

/-! ### Parameters -/

/-- Pairs parameters with values. `paired` counts the pairs made before,
whose bindings are in `bindings`; `formals` are all parameters and
`count` is the number of all values, for messages. A symbol in place of
the end takes the values that are left as a list. -/
def pairFormals (depth : Nat) (formals : Value) (count : Nat) :
    (paired : Nat) → (bindings : List (String × Value)) → Value → List Value →
      EvalOn F (List (String × Value))
  | paired, bindings, p, values => do
    match ← inquire fun s => s.cell? p with
    | some c =>
      match c.car with
      | .symbol name =>
        match values with
        | [] =>
          let (missing, _) ← spine p
          throw (.arity "too few values" (some (paired + missing.length)) (some count))
        | v :: values =>
          pairFormals depth formals count (paired + 1) (Frame.insert name v bindings) c.cdr values
      | other => failShowing depth .parameter other
    | none =>
      match p with
      | .nil =>
        if values.isEmpty then return bindings
        else throw (.arity "too many values" (some paired) (some count))
      | .symbol name =>
        let rest ← change fun s => s.list values .nil
        return Frame.insert name rest bindings
      | _ => failShowing depth .parameterList formals

/-- A new frame inside `env` that pairs parameters with values. -/
def extend (depth : Nat) (env : Ref) (formals : Value) (values : List Value) : EvalOn F Ref := do
  let bindings ← pairFormals depth formals values.length 0 [] formals values
  let r ← change fun s => s.newFrame ⟨bindings, some env⟩
  note fun s => do
    let shown ← s.showFrame depth r
    .ok (.extended env shown)
  return r

end MiniScheme
