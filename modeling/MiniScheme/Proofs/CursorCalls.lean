import MiniScheme.Datum.Stream
import MiniScheme.Proofs.Acceptance
import MiniScheme.Proofs.Prefixes

/-!
# `MiniScheme.Proofs.CursorCalls`: what calls do to a plain cursor

`Cursor.call` says what a call means without a buffer and without recursion
into forms: it is a function of the tokens that were not taken yet and of the
fault behind them. `Takes` says which tokens a call takes, given its reply.

One call either does not come to the end of the tokens, and then the fault
behind them makes no difference, or it does, and then the fault takes the place
of the end (`Cursor.Acts`). By induction over a row of calls, the tokens taken
are a front of all tokens (`exists_taken`), and the fault arises once, in the
first call that comes to the end (`calls_of_fault`).
-/

set_option autoImplicit false

namespace MiniScheme

open TokenStream (Call Reply)
open Phrase (tokensAll dataAll nestingAll)

namespace TokenStream.Reply

/-- The call failed because too many forms were open. -/
def overflows : Reply → Bool
  | .datum (.error .tooDeep) | .data _ (some .tooDeep) => true
  | _ => false

/-- The call came to the end of the tokens, and no fault was behind them. -/
def meetsEnd : Reply → Bool
  | .token (.ok none) | .datum (.ok none) | .data _ none => true
  | .datum (.error (.reading e)) | .data _ (some (.reading e)) => e.isIncomplete
  | _ => false

/-- The reply with a fault in place of the end of the tokens. -/
def raise (e : ReadError) : Reply → Reply
  | .token _ => .token (.error (.reading e))
  | .datum _ => .datum (.error (.reading e))
  | .data read _ => .data read (some (.reading e))

/-- The replies with a fault in place of the end of the tokens, which arises
once. -/
def raiseOnce (e : ReadError) : List Reply → List Reply
  | [] => []
  | r :: rs => if r.meetsEnd then r.raise e :: rs else r :: raiseOnce e rs

/-- A fault that no token mends is not the end. -/
theorem meetsEnd_datum {e : Fault} (h : Datum.IsFinal e) :
    (datum (.error e)).meetsEnd = false := by
  cases h with
  | tooDeep => rfl
  | reading complete => exact complete

theorem meetsEnd_data {e : Fault} (h : Datum.IsFinal e) (read : List Datum) :
    (data read (some e)).meetsEnd = false := by
  cases h with
  | tooDeep => rfl
  | reading complete => exact complete

end TokenStream.Reply

namespace Cursor

variable {depth : Nat} {ts us : List Token}

/-! ### Calls -/

/-- What a call does to a plain cursor. -/
def call (depth : Nat) (c : Cursor) : Call → Reply × Cursor
  | .peek => c.peek.map .token id
  | .advance => c.advance.map .token id
  | .parse => (c.next depth).map .datum id
  | .parseAll =>
    let (read, fault, c) := c.rest depth
    (.data read fault, c)

/-- The replies to calls one after the other. -/
def calls (depth : Nat) : Cursor → List Call → List Reply × Cursor
  | c, [] => ([], c)
  | c, first :: rest =>
    let (reply, c) := c.call depth first
    let (replies, c) := c.calls depth rest
    (reply :: replies, c)

theorem calls_cons (depth : Nat) (c : Cursor) (first : Call) (rest : List Call) :
    c.calls depth (first :: rest) =
      ((c.call depth first).1 :: ((c.call depth first).2.calls depth rest).1,
        ((c.call depth first).2.calls depth rest).2) := rfl

/-! ### One datum -/

/-- No phrase within the limit stands at the front of these tokens. -/
def NoPhrase (depth : Nat) (ts : List Token) : Prop :=
  ∀ p : Phrase, p.nesting ≤ depth → ¬p.tokens <+: ts

theorem noPhrase_of_error {fault : Option ReadError} {e : Fault} {c : Cursor}
    (h : nextFrom fault depth [] (ts ++ us) = (.error e, c)) : NoPhrase depth ts := by
  rintro p hp ⟨rest, rfl⟩
  rw [List.append_assoc, p.nextFrom_tokens fault depth [] _ trivial hp] at h
  cases h

/-- What reading on does to the tokens `us`, where the tokens `ts` before them
left these forms open: it takes a phrase, or fails, or comes to the end with
forms still open. Only in the last case does the fault of the text matter. -/
inductive NextActs (depth room : Nat) (stack : List OpenForm) (ts us : List Token) : Prop
  | done (p : Phrase) (more : List Token) (fits : p.nesting ≤ depth)
      (parts : p.tokens ++ more = ts ++ us)
      (acts : ∀ fault, nextFrom fault room stack us = (.ok (some p.datum), ⟨more, fault⟩))
  | failed (e : Fault) (used more : List Token) (final : Datum.IsFinal e)
      (parts : used ++ more = us)
      (acts : ∀ fault, nextFrom fault room stack us = (.error e, ⟨more, fault⟩))
  | through (stack' : List OpenForm) (nothing : stack' = [] → ts ++ us = [])
      (acts : ∀ fault, nextFrom fault room stack us
        = ((atEnd fault stack').map fun () => none, ⟨[], none⟩))

theorem nextActs (us : List Token) : ∀ {room : Nat} {stack : List OpenForm} {ts : List Token},
    Opened depth room stack ts → NextActs depth room stack ts us := by
  induction us with
  | nil =>
      intro room stack ts hopened
      refine .through stack (fun hstack => ?_) fun fault => rfl
      subst hstack
      rw [hopened.eq_nil]
      rfl
  | cons t us ih =>
      intro room stack ts hopened
      have hderived := hopened.feed t
      have hregular := Datum.feed_regular room stack t
      cases hfeed : Datum.feed room stack t with
      | done d =>
          rw [hfeed] at hderived
          obtain ⟨p, rfl, hp, hnesting⟩ := hderived
          exact .done p us hnesting (by simp [hp]) fun fault => by rw [nextFrom, hfeed]
      | reject e =>
          rw [hfeed] at hregular
          exact .failed e [t] us hregular rfl fun fault => by rw [nextFrom, hfeed]
      | decline e =>
          rw [hfeed] at hregular
          exact .failed e [] (t :: us) hregular rfl fun fault => by rw [nextFrom, hfeed]
      | more room' stack' =>
          rw [hfeed] at hderived
          have hnext (fault : Option ReadError) :
              nextFrom fault room stack (t :: us) = nextFrom fault room' stack' us := by
            rw [nextFrom, hfeed]
          rcases ih hderived with ⟨p, more, fits, parts, acts⟩ | ⟨e, used, more, final, parts, acts⟩ |
            ⟨stack'', nothing, acts⟩
          · exact .done p more fits (by simpa using parts) fun fault => (hnext fault).trans (acts fault)
          · exact .failed e (t :: used) more final (by simp [parts])
              fun fault => (hnext fault).trans (acts fault)
          · exact .through stack'' (fun hstack => by simpa using nothing hstack)
              fun fault => (hnext fault).trans (acts fault)

/-- Tokens that are taken up to the end have no phrase in front. -/
theorem noPhrase_of_atEnd {stack : List OpenForm}
    (h : ∀ fault, nextFrom fault depth [] ts = ((atEnd fault stack).map fun () => none, ⟨[], none⟩)) :
    NoPhrase depth ts := by
  have herror : nextFrom (some .openList) depth [] (ts ++ [])
      = (.error (.reading .openList), ⟨[], none⟩) := by
    rw [List.append_nil, h]
    rfl
  exact noPhrase_of_error herror

/-! ### Data up to the end -/

/-- The fault that ends a row of data at the end of the tokens. -/
def endFault (fault : Option ReadError) (stack : List OpenForm) : Option Fault :=
  match atEnd fault stack with
  | .ok () => none
  | .error e => some e

/-- What reading all data does: it takes phrases until it fails or comes to the
end, there or inside one more form. -/
inductive RestActs (depth : Nat) (read : List Datum) (us : List Token) : Prop
  | failed (ps : List Phrase) (e : Fault) (used more : List Token)
      (fits : nestingAll ps ≤ depth) (final : Datum.IsFinal e)
      (parts : tokensAll ps ++ used ++ more = us) (noPhrase : NoPhrase depth used)
      (acts : ∀ fault, restFrom depth fault read depth [] us
        = (read.reverse ++ dataAll ps, some e, ⟨more, fault⟩))
  | through (ps : List Phrase) (used : List Token) (stack : List OpenForm)
      (fits : nestingAll ps ≤ depth) (parts : tokensAll ps ++ used = us)
      (nothing : stack = [] → used = []) (noPhrase : NoPhrase depth used)
      (acts : ∀ fault, restFrom depth fault read depth [] us
        = (read.reverse ++ dataAll ps, endFault fault stack, ⟨[], none⟩))

/-- A phrase that is read comes before the others. -/
theorem RestActs.cons {read : List Datum} {p : Phrase} (h : RestActs depth (p.datum :: read) us)
    (hp : p.nesting ≤ depth) (hparts : p.tokens ++ us = ts)
    (hfirst : ∀ fault, restFrom depth fault read depth [] ts
      = restFrom depth fault (p.datum :: read) depth [] us) : RestActs depth read ts := by
  rcases h with ⟨ps, e, used, more, fits, final, parts, noPhrase, acts⟩ |
    ⟨ps, used, stack, fits, parts, nothing, noPhrase, acts⟩
  · refine .failed (p :: ps) e used more (Nat.max_le.mpr ⟨hp, fits⟩) final ?_ noPhrase fun fault => ?_
    · rw [tokensAll, List.append_assoc, List.append_assoc, ← List.append_assoc (tokensAll ps), parts,
        hparts]
    · rw [hfirst, acts, dataAll, List.reverse_cons, List.append_assoc]
      rfl
  · refine .through (p :: ps) used stack (Nat.max_le.mpr ⟨hp, fits⟩) ?_ nothing noPhrase
      fun fault => ?_
    · rw [tokensAll, List.append_assoc, parts, hparts]
    · rw [hfirst, acts, dataAll, List.reverse_cons, List.append_assoc]
      rfl

theorem restActs (us : List Token) (read : List Datum) : RestActs depth read us := by
  induction hlength : us.length using Nat.strongRecOn generalizing us read with
  | ind n ih =>
      have hopened : Opened depth depth [] [] := .none
      rcases nextActs us hopened with ⟨p, more, fits, parts, acts⟩ |
        ⟨e, used, more, final, parts, acts⟩ | ⟨stack, nothing, acts⟩
      · obtain ⟨t, ts, htokens, -⟩ := p.exists_tokens_eq_cons
        have hshorter : more.length < n := by
          rw [← hlength, ← List.nil_append us, ← parts, htokens, List.length_append,
            List.length_cons]
          omega
        refine (ih _ hshorter more (p.datum :: read) rfl).cons fits parts fun fault => ?_
        rw [restFrom_eq, acts]
      · subst parts
        have hnone : NoPhrase depth used := noPhrase_of_error (acts none)
        exact .failed [] e used more (Nat.zero_le depth) final rfl hnone
          fun fault => by rw [restFrom_eq, acts]; simp [dataAll]
      · refine .through [] us stack (Nat.zero_le depth) rfl nothing (noPhrase_of_atEnd acts)
          fun fault => ?_
        rw [restFrom_eq, acts, endFault]
        cases atEnd fault stack <;> simp [dataAll, Except.map]

/-! ### One call -/

/-- The tokens that a call takes. What a datum is read from is a phrase; what a
fault of reading takes has no phrase in front. -/
inductive Takes (depth : Nat) : Call → Reply → List Token → Prop
  | peek (r : Except Fault (Option Token)) : Takes depth .peek (.token r) []
  | advance (t : Token) : Takes depth .advance (.token (.ok (some t))) [t]
  | advanceNone {r : Except Fault (Option Token)} (nothing : ∀ t, r ≠ .ok (some t)) :
      Takes depth .advance (.token r) []
  | parse (p : Phrase) (fits : p.nesting ≤ depth) :
      Takes depth .parse (.datum (.ok (some p.datum))) p.tokens
  | parseNone : Takes depth .parse (.datum (.ok none)) []
  | parseFault (e : Fault) {used : List Token} (noPhrase : NoPhrase depth used) :
      Takes depth .parse (.datum (.error e)) used
  | parseAll (ps : List Phrase) (fits : nestingAll ps ≤ depth) :
      Takes depth .parseAll (.data (dataAll ps) none) (tokensAll ps)
  | parseAllFault (ps : List Phrase) (e : Fault) {used : List Token}
      (fits : nestingAll ps ≤ depth) (noPhrase : NoPhrase depth used) :
      Takes depth .parseAll (.data (dataAll ps) (some e)) (tokensAll ps ++ used)

/-- What a call does to tokens, with and without a fault behind them. If it does
not come to their end, the fault makes no difference. If it does, the fault
takes the place of the end, and nothing is left. -/
inductive Acts (depth : Nat) (c : Call) (ts : List Token) : Prop
  | short (r : Reply) (used more : List Token) (takes : Takes depth c r used)
      (parts : used ++ more = ts) (meets : r.meetsEnd = false)
      (acts : ∀ fault, call depth ⟨ts, fault⟩ c = (r, ⟨more, fault⟩))
  | through (r : Reply) (takes : Takes depth c r ts) (meets : r.meetsEnd = true)
      (acts : call depth ⟨ts, none⟩ c = (r, ⟨[], none⟩))
      (takesFault : ∀ e, Takes depth c (r.raise e) ts)
      (actsFault : ∀ e, call depth ⟨ts, some e⟩ c = (r.raise e, ⟨[], none⟩))

theorem acts_peek (ts : List Token) : Acts depth .peek ts := by
  cases ts with
  | nil => exact .through (.token (.ok none)) (.peek _) rfl rfl (fun _ => .peek _) fun _ => rfl
  | cons t ts => exact .short (.token (.ok (some t))) [] (t :: ts) (.peek _) rfl rfl fun _ => rfl

theorem acts_advance (ts : List Token) : Acts depth .advance ts := by
  cases ts with
  | nil =>
      exact .through (.token (.ok none)) (.advanceNone nofun) rfl rfl
        (fun _ => .advanceNone nofun) fun _ => rfl
  | cons t ts => exact .short (.token (.ok (some t))) [t] ts (.advance t) rfl rfl fun _ => rfl

theorem acts_parse (ts : List Token) : Acts depth .parse ts := by
  have hopened : Opened depth depth [] [] := .none
  have hcall (fault : Option ReadError) : call depth ⟨ts, fault⟩ .parse
      = (nextFrom fault depth [] ts).map .datum id := rfl
  rcases nextActs ts hopened with ⟨p, more, fits, parts, acts⟩ |
    ⟨e, used, more, final, parts, acts⟩ | ⟨stack, nothing, acts⟩
  · exact .short _ p.tokens more (.parse p fits) parts rfl fun fault => by rw [hcall, acts]; rfl
  · have hnone : NoPhrase depth used := noPhrase_of_error (parts ▸ acts none)
    exact .short _ used more (.parseFault e hnone) parts (Reply.meetsEnd_datum final)
      fun fault => by rw [hcall, acts]; rfl
  · have hnone : NoPhrase depth ts := noPhrase_of_atEnd acts
    have hfault (e : ReadError) : Takes depth .parse (.datum (.error (.reading e))) ts :=
      .parseFault _ hnone
    cases stack with
    | nil =>
        obtain rfl : ts = [] := nothing rfl
        exact .through (.datum (.ok none)) .parseNone rfl rfl hfault fun _ => rfl
    | cons form stack =>
        refine .through (.datum (.error (.reading form.unfinished))) (hfault _)
          (Row.isIncomplete_unfinished form) ?_ hfault fun e => ?_
        · rw [hcall, acts]; rfl
        · rw [hcall, acts]; rfl

theorem acts_parseAll (ts : List Token) : Acts depth .parseAll ts := by
  have hcall (fault : Option ReadError) : call depth ⟨ts, fault⟩ .parseAll
      = (.data (restFrom depth fault [] depth [] ts).1 (restFrom depth fault [] depth [] ts).2.1,
        (restFrom depth fault [] depth [] ts).2.2) := rfl
  rcases restActs ts [] with ⟨ps, e, used, more, fits, final, parts, noPhrase, acts⟩ |
    ⟨ps, used, stack, fits, parts, nothing, noPhrase, acts⟩
  · exact .short _ _ more (.parseAllFault ps e fits noPhrase) parts
      (Reply.meetsEnd_data final _) fun fault => by rw [hcall, acts]; rfl
  · have hfault (e : ReadError) :
        Takes depth .parseAll (.data (dataAll ps) (some (.reading e))) ts :=
      parts ▸ .parseAllFault ps _ fits noPhrase
    cases stack with
    | nil =>
        obtain rfl : used = [] := nothing rfl
        rw [List.append_nil] at parts
        subst parts
        refine .through (.data (dataAll ps) none) (.parseAll ps fits) rfl ?_ hfault fun e => ?_
        · rw [hcall, acts]; rfl
        · rw [hcall, acts]; rfl
    | cons form stack =>
        refine .through (.data (dataAll ps) (some (.reading form.unfinished))) (hfault _)
          (Row.isIncomplete_unfinished form) ?_ hfault fun e => ?_
        · rw [hcall, acts]; rfl
        · rw [hcall, acts]; rfl

theorem acts (depth : Nat) (c : Call) (ts : List Token) : Acts depth c ts := by
  cases c with
  | peek => exact acts_peek ts
  | advance => exact acts_advance ts
  | parse => exact acts_parse ts
  | parseAll => exact acts_parseAll ts

/-! ### Rows of calls -/

/-- The tokens that a row of calls takes, each call some. -/
inductive TakesAll (depth : Nat) : List Call → List Reply → List Token → Prop
  | nil : TakesAll depth [] [] []
  | cons {c : Call} {cs : List Call} {r : Reply} {rs : List Reply} {ts us : List Token}
      (first : Takes depth c r ts) (rest : TakesAll depth cs rs us) :
      TakesAll depth (c :: cs) (r :: rs) (ts ++ us)

/-- What a call takes and what it leaves are the tokens that were there. -/
theorem exists_takes (depth : Nat) (c : Cursor) (first : Call) :
    ∃ used, Takes depth first (c.call depth first).1 used ∧
      used ++ (c.call depth first).2.tokens = c.tokens := by
  obtain ⟨ts, fault⟩ := c
  rcases acts depth first ts with ⟨r, used, more, takes, parts, -, acts⟩ |
    ⟨r, takes, -, acts, takesFault, actsFault⟩
  · rw [acts]
    exact ⟨used, takes, parts⟩
  · cases fault with
    | none => exact ⟨ts, by rw [acts]; exact takes, by rw [acts]; exact List.append_nil ts⟩
    | some e =>
        exact ⟨ts, by rw [actsFault]; exact takesFault e, by rw [actsFault]; exact List.append_nil ts⟩

/-- The tokens that were taken are a front of all tokens, in order. -/
theorem exists_takesAll (depth : Nat) (cs : List Call) :
    ∀ c : Cursor, ∃ taken, TakesAll depth cs (c.calls depth cs).1 taken ∧
      taken ++ (c.calls depth cs).2.tokens = c.tokens := by
  induction cs with
  | nil => exact fun c => ⟨[], .nil, rfl⟩
  | cons first cs ih =>
      intro c
      obtain ⟨used, htakes, hused⟩ := exists_takes depth c first
      obtain ⟨taken, htaken, hrest⟩ := ih (c.call depth first).2
      refine ⟨used ++ taken, .cons htakes htaken, ?_⟩
      rw [List.append_assoc]
      exact (congrArg (used ++ ·) hrest).trans hused

/-- Where no fault was, none comes up. -/
theorem fault_calls (depth : Nat) (cs : List Call) :
    ∀ ts : List Token, ((Cursor.mk ts none).calls depth cs).2.fault = none := by
  induction cs with
  | nil => exact fun _ => rfl
  | cons first cs ih =>
      intro ts
      rw [calls_cons]
      rcases acts depth first ts with ⟨r, used, more, -, -, -, acts⟩ | ⟨r, -, -, acts, -, -⟩
      · rw [acts]
        exact ih more
      · rw [acts]
        exact ih []

/-- **The fault behind the tokens arises once**, in the first call that comes to
the end. Until then it makes no difference, and from then on neither. -/
theorem calls_of_fault (depth : Nat) (e : ReadError) (cs : List Call) :
    ∀ ts : List Token,
      ((Cursor.mk ts (some e)).calls depth cs).1
        = Reply.raiseOnce e ((Cursor.mk ts none).calls depth cs).1 ∧
      ((Cursor.mk ts (some e)).calls depth cs).2 = ⟨((Cursor.mk ts none).calls depth cs).2.tokens,
        if ((Cursor.mk ts none).calls depth cs).1.any Reply.meetsEnd then none else some e⟩ := by
  induction cs with
  | nil => exact fun _ => ⟨rfl, rfl⟩
  | cons first cs ih =>
      intro ts
      rw [calls_cons, calls_cons]
      rcases acts depth first ts with ⟨r, used, more, -, -, meets, acts⟩ |
        ⟨r, -, meets, acts, -, actsFault⟩
      · obtain ⟨hreplies, hleft⟩ := ih more
        simp only [acts, Reply.raiseOnce, List.any_cons, meets, Bool.false_or]
        exact ⟨congrArg (r :: ·) hreplies, hleft⟩
      · have hnone := fault_calls depth cs []
        simp only [acts, actsFault, Reply.raiseOnce, List.any_cons, meets, Bool.true_or, if_true,
          true_and]
        exact congrArg (Cursor.mk _) hnone

end Cursor

end MiniScheme
