import Garnet.Proofs.Register.Balance

/-!
# Courses of uses of a register cache

A course is any sequence of actions, with loans nested to any depth, whose bodies may fail and may have
their failures caught. It runs on any state that owns a register cache. What single actions, notes and
loans keep is kept by whole courses (`Kept.runAll`).
-/

namespace Garnet

/-- Why a course stops. -/
inductive Mishap where
  | exhausted
  | failed
deriving DecidableEq, Repr

/-- One turn of a course. -/
inductive Turn (A : Type) where
  | act (a : A)
  | fail
  /-- Catch a failure. -/
  | attempt (body : List (Turn A))
  | borrow (body : List (Turn A))

/-- A state that courses run on. What an action does and what is noted may depend on the registers
that are on loan. -/
class Stage (A : outParam Type) (σ : Type) extends RegisterOwner Mishap σ where
  act : List Reg → A → σ → σ
  note : List Reg → σ → σ

/-- A use of a register cache. -/
inductive Use where
  | cache (var : String)
  | markDirty (var : String)
  | evict (var : String)
  | evictAll
  | evictCallerSaved
  | lock (reg : Reg)
  | unlock (reg : Reg)

/-- The stores that a use asks for, and the cache after it. -/
def Use.on (c : Cache) : Use → List Spill × Cache
  | .cache var => ([], (c.cache var).2)
  | .markDirty var => ([], c.markDirty var)
  | .evict var => ((c.evict var).1.toList, (c.evict var).2)
  | .evictAll => c.evictAll
  | .evictCallerSaved => c.evictCallerSaved
  | .lock reg => ([], c.lock reg)
  | .unlock reg => ([], c.unlock reg)

/-- The state at the end of a computation, after a failure too. -/
def endOf {ε σ α : Type} : EStateM.Result ε σ α → σ
  | .ok _ s => s
  | .error _ s => s

@[simp]
lemma endOf_ok {ε σ α : Type} (a : α) (s : σ) : endOf (.ok a s : EStateM.Result ε σ α) = s := rfl

@[simp]
lemma endOf_error {ε σ α : Type} (e : ε) (s : σ) : endOf (.error e s : EStateM.Result ε σ α) = s := rfl

lemma ends_iff {ε σ α : Type} {P : σ → Prop} {r : EStateM.Result ε σ α} : Ends P r ↔ P (endOf r) := by
  cases r <;> exact Iff.rfl

section

variable {A σ : Type} [Stage A σ]

namespace Turn

mutual

/-- Take a turn while the registers `loans` are on loan. -/
def run (loans : List Reg) : Turn A → EStateM Mishap σ Unit
  | .act a => modify fun s => Stage.note loans (Stage.act loans a s)
  | .fail => throw .failed
  | .attempt body => fun s =>
    match runAll loans body s with
    | .ok _ s => .ok () s
    | .error _ s => .ok () s
  | .borrow body => fun s =>
    let loan : EStateM Mishap σ Unit := withRegister fun reg => do
      modify (Stage.note (reg :: loans))
      runAll (reg :: loans) body
    match loan s with
    | .ok _ s => .ok () (Stage.note loans s)
    | .error e s => .error e (Stage.note loans s)

/-- Take turns one after the other; a failure skips the rest. -/
def runAll (loans : List Reg) : List (Turn A) → EStateM Mishap σ Unit
  | [] => return
  | a :: as => do
    run loans a
    runAll loans as

end

/-- What runs with a register on loan. -/
def lent (loans : List Reg) (body : List (Turn A)) : EStateM Mishap σ Unit :=
  withRegister fun reg => do
    modify (Stage.note (reg :: loans))
    runAll (reg :: loans) body

lemma run_borrow (loans : List Reg) (body : List (Turn A)) (s : σ) :
    run loans (.borrow body) s = match lent loans body s with
      | .ok _ s => .ok () (Stage.note loans s)
      | .error e s => .error e (Stage.note loans s) := rfl

end Turn

/-- A property of states, while registers are on loan, that every action, note and loan keeps. -/
structure Kept (Inv : List Reg → σ → Prop) : Prop where
  act {loans : List Reg} {s : σ} (a : A) : Inv loans s → Inv loans (Stage.act loans a s)
  note {loans : List Reg} {s : σ} : Inv loans s → Inv loans (Stage.note loans s)
  loan {loans : List Reg} {body : Reg → EStateM Mishap σ Unit} :
    (∀ reg, Maintains (Inv (reg :: loans)) (body reg)) → Maintains (Inv loans) (withRegister body)

namespace Kept

variable {Inv : List Reg → σ → Prop} {loans : List Reg} {body : List (Turn A)}

lemma attempt (hb : Maintains (Inv loans) (Turn.runAll loans body : EStateM Mishap σ Unit)) :
    Maintains (Inv loans) (Turn.run loans (.attempt body) : EStateM Mishap σ Unit) := by
  intro s hs
  have hend := hb s hs
  change Ends _ (match Turn.runAll loans body s with
    | .ok _ s => .ok () s
    | .error _ s => .ok () s)
  cases hr : Turn.runAll loans body s <;> rw [hr] at hend <;> exact hend

lemma borrow (h : Kept Inv)
    (hb : ∀ reg, Maintains (Inv (reg :: loans)) (Turn.runAll (reg :: loans) body)) :
    Maintains (Inv loans) (Turn.run loans (.borrow body) : EStateM Mishap σ Unit) := by
  have hn reg : Maintains (Inv (reg :: loans))
      (modify (Stage.note (reg :: loans)) >>= fun _ => Turn.runAll (reg :: loans) body) :=
    Maintains.bind (fun _ ht => h.note ht) fun _ => hb reg
  intro s hs
  have hend : Ends (Inv loans) (Turn.lent loans body s) := h.loan hn s hs
  rw [Turn.run_borrow]
  cases hr : Turn.lent loans body s <;> rw [hr] at hend <;> exact h.note hend

mutual

theorem run (h : Kept Inv) (loans : List Reg) : ∀ t : Turn A, Maintains (Inv loans) (t.run loans)
  | .act a => fun _ hs => h.note (h.act a hs)
  | .fail => fun _ hs => hs
  | .attempt body => attempt (h.runAll loans body)
  | .borrow body => h.borrow fun reg => h.runAll (reg :: loans) body

theorem runAll (h : Kept Inv) (loans : List Reg) :
    ∀ ts : List (Turn A), Maintains (Inv loans) (Turn.runAll loans ts)
  | [] => fun _ hs => hs
  | t :: ts => (h.run loans t).bind fun _ => h.runAll loans ts

end

end Kept

end

end Garnet
