import Garnet.Code.Routine
import Garnet.Proofs.Outcome
import Garnet.Proofs.Register.Balance

/-!
# Variables are at home where control meets

Where control can come from several places, or leaves for compiled code, no variable may live in a register only.
Each line is kept with the variables that were in registers when it was written: at a *junction* there were none.

Code is written in one of four ways. A `Plain` piece writes no junction and leaves the registers alone. A `Keeps`
one may cache variables, and writes junctions only where none is cached. A `Clears` one also ends with all
variables at home, and a `Stays` one starts and ends so.
-/

namespace Garnet

open Reg Cache

/-! ### Lines -/

def Emitter.lines (s : Emitter) : List Line := s.entries.toList.map Entry.line

namespace Emit

variable {lines : List Line} {line : Line} {a : Unit} {s s' : Emitter}

lemma lines_write (h : write line s = .ok a s') : s'.lines = s.lines ++ [line] := by
  cases h
  simp [Emitter.lines]

lemma writeAll_eq_ok (h : writeAll lines s = .ok a s') : s'.lines = s.lines ++ lines ∧ s'.shared = s.shared := by
  induction lines generalizing s with
  | nil =>
    cases h
    simp
  | cons line lines ih =>
    obtain ⟨u, t, hl, hlin⟩ := bind_eq_ok.mp h
    obtain ⟨hr, hs⟩ := ih hlin
    rw [hr, lines_write hl, List.append_assoc, List.singleton_append]
    cases hl
    exact ⟨rfl, hs⟩

lemma home_eq_ok {name : String} {span : Option Span} {o : Operand}
    (h : home name span s = .ok o s') : s.frame.home? name = some o ∧ s' = s := by
  rw [home, get_bind_eq] at h
  cases hh : s.frame.home? name with
  | some o =>
    simp only [hh] at h
    cases h
    exact ⟨rfl, rfl⟩
  | none =>
    simp only [hh] at h
    cases h

end Emit

/-! ### Junctions -/

/-- The functions of the run-time library that call compiled code with the arguments of an array. -/
def splatCalls : List String := ["__splat_call", "__splat_super"]

/-- Control can meet or part at the line, or it calls compiled code: a label, a jump, a call that is
no call of the run-time library, and one that is and spreads an array over the arguments. In a
protected region every call of the run-time library may raise an exception. -/
def Entry.isJunction (e : Entry) : Bool := match e.line, e.origin with
  | .label _, _ => true
  | .ins opcode _, .code => opcode.toList.head? == some 'j' || opcode == "call"
  | .ins _ operands, .runtimeCall guarded =>
    guarded || splatCalls.any fun name => operands == [.abs name]
  | _, _ => false

/-- The line is no junction when it is written as code. -/
def Line.isStraight (l : Line) : Bool := !(Entry.mk l [] .code).isJunction

/-- No register is lent out or locked, and no variable was cached at a junction. -/
structure Emitter.Tidy (s : Emitter) : Prop where
  balanced : s.registers.Balanced []
  unlocked : s.registers.locked = []
  settled : ∀ e ∈ s.entries, e.isJunction → e.held = []

/-- A tidy state in which no variable is cached. -/
structure Emitter.AtHome (s : Emitter) : Prop extends Tidy s where
  held : s.registers.held = []

namespace Emit

variable {name : String}

open Emitter

variable {α β : Type} {m : Emit α}

/-- The computation writes no junction and leaves the registers as they are. -/
def Plain (m : Emit α) : Prop := ∀ ⦃s a s'⦄, m s = .ok a s' → s'.registers = s.registers ∧
    ∀ e ∈ s'.entries, e ∈ s.entries ∨ e.isJunction = false

/-- The computation writes a junction only where no variable is cached. -/
abbrev Keeps (m : Emit α) : Prop := Ensures Tidy m fun _ => Tidy

/-- The computation writes a junction only where no variable is cached, and leaves none cached. -/
abbrev Clears (m : Emit α) : Prop := Ensures Tidy m fun _ => AtHome

/-- Where no variable is cached, none is while the computation writes or afterwards. -/
abbrev Stays (m : Emit α) : Prop := Ensures AtHome m fun _ => AtHome

/-! ### How the four ways combine -/

lemma Plain.pure (a : α) : Plain (pure a : Emit α) := by
  intro s b s' h
  cases h
  exact ⟨rfl, fun e he => .inl he⟩

lemma Plain.bind {f : α → Emit β} (hm : Plain m) (hf : ∀ a, Plain (f a)) : Plain (m >>= f) := by
  intro s b s' h
  obtain ⟨a, t, ha, hb⟩ := bind_eq_ok.mp h
  obtain ⟨hreg, hent⟩ := hm ha
  obtain ⟨hreg', hent'⟩ := hf a hb
  refine ⟨hreg'.trans hreg, fun e he => ?_⟩
  rcases hent' e he with he | he
  · exact hent e he
  · exact .inr he

lemma Plain.fail {cause : EmitCause} {span : Span} : Plain (fail cause span : Emit α) :=
  fun _ _ _ h => absurd h throw_ne_ok

lemma Plain.keeps (h : Plain m) : Keeps m := by
  intro s a s' hs hm
  obtain ⟨hreg, hent⟩ := h hm
  refine ⟨hreg ▸ hs.balanced, hreg ▸ hs.unlocked, fun e he hj => ?_⟩
  rcases hent e he with he | hno
  · exact hs.settled e he hj
  · simp [hno] at hj

lemma Plain.stays (h : Plain m) : Stays m := fun _ _ _ hs hm => ⟨h.keeps hs.toTidy hm, (h hm).1 ▸ hs.held⟩

lemma Clears.keeps (h : Clears m) : Keeps m := h.mono (fun _ hs => hs) fun _ _ hs => hs.toTidy

lemma Clears.stays (h : Clears m) : Stays m := h.mono (fun _ hs => hs.toTidy) fun _ _ hs => hs

lemma Clears.thenStays {f : α → Emit β} (hm : Clears m) (hf : ∀ a, Stays (f a)) : Clears (m >>= f) :=
  Ensures.bind hm hf

/-! ### Writing -/

lemma plain_of_unchanged
    (h : ∀ ⦃s a s'⦄, m s = .ok a s' → s'.registers = s.registers ∧ s'.entries = s.entries) :
    Plain m := by
  intro s a s' hm
  obtain ⟨hreg, hent⟩ := h hm
  exact ⟨hreg, fun e he => .inl (hent ▸ he)⟩

lemma plain_write {line : Line} (h : line.isStraight) : Plain (write line) := by
  intro s a s' hm
  cases hm
  refine ⟨rfl, fun e he => ?_⟩
  rcases Array.mem_push.mp he with he | rfl
  · exact .inl he
  · right
    have hno : (Entry.mk line [] .code).isJunction = false := by simpa [Line.isStraight] using h
    exact hno

lemma plain_writeAll {lines : List Line} (h : lines.all Line.isStraight) : Plain (writeAll lines) := by
  induction lines with
  | nil => exact Plain.pure _
  | cons line lines ih =>
    rw [List.all_cons, Bool.and_eq_true] at h
    exact (plain_write h.1).bind fun _ => ih h.2

lemma stays_push (line : Line) (origin : Origin) : Stays
    (modify fun s : Emitter => { s with entries := s.entries.push ⟨line, s.registers.view, origin⟩ }) := by
  intro s a s' hs hm
  cases hm
  refine ⟨⟨hs.balanced, hs.unlocked, fun e he hj => ?_⟩, hs.held⟩
  rcases Array.mem_push.mp he with he | rfl
  · exact hs.settled e he hj
  · exact List.map_eq_nil_iff.mpr hs.held

lemma stays_write (line : Line) : Stays (write line) := stays_push line .code

lemma stays_writeAll (lines : List Line) : Stays (writeAll lines) :=
  Ensures.forM fun line _ => stays_write line

lemma plain_home (name : String) (span : Option Span) : Plain (home name span) :=
  plain_of_unchanged fun _ _ _ hm => by obtain ⟨-, rfl⟩ := home_eq_ok hm; exact ⟨rfl, rfl⟩

lemma plain_spill (spill : Spill) : Plain (RegisterOwner.spill spill : Emit Unit) :=
  (plain_home _ _).bind fun _ => plain_write rfl

lemma plain_storeAll (spills : List Spill) : Plain (storeAll spills) := by
  induction spills with
  | nil => exact Plain.pure _
  | cons spill spills ih => exact (plain_spill spill).bind fun _ => ih

/-! ### The register cache -/

lemma keeps_withCache {f : Cache → α × Cache}
    (hbal : ∀ c : Cache, c.Balanced [] → (f c).2.Balanced [])
    (hl : ∀ c : Cache, (f c).2.locked = c.locked) : Keeps (withCache f) := by
  intro s a s' hs hm
  cases hm
  exact ⟨hbal _ hs.balanced, (hl _).trans hs.unlocked, hs.settled⟩

lemma clears_evictAll : Clears (withCache evictAll) := by
  intro s a s' hs hm
  have ht : s'.Tidy := keeps_withCache (fun c hc => hc.evictWhere _)
    (fun c => locked_evictEach _ _) hs hm
  cases hm
  exact ⟨ht, held_evictAll hs.balanced hs.unlocked⟩

lemma keeps_evictCallerSaved : Keeps (withCache evictCallerSaved) :=
  keeps_withCache (fun _ hc => hc.evictWhere _) fun _ => locked_evictEach _ _

lemma stays_evictCallerSaved : Stays (withCache evictCallerSaved) := by
  intro s a s' hs hm
  have ht := keeps_evictCallerSaved hs.toTidy hm
  cases hm
  refine ⟨ht, ?_⟩
  change (evictCallerSaved s.registers).2.held = []
  rw [evictCallerSaved, evictWhere, held_evictEach,
    hs.held, List.filter_nil]

lemma keeps_cache (var : String) : Keeps (withCache (·.cache var)) := by
  refine keeps_withCache (fun _ hc => hc.cache var) fun c => ?_
  rw [cache]
  split
  · rfl
  · split
    · split <;> rfl
    · rfl

lemma keeps_markDirty (var : String) : Keeps (withCache fun c => ((), c.markDirty var)) :=
  keeps_withCache (fun _ hc => hc.markDirty var) fun _ => rfl

lemma tidy_returnRegister {loan : Cache.Loan} {s s' : Emitter} {u : Unit}
    (hbal : s.registers.Balanced [loan.reg]) (hlo : (s.registers.unlock loan.reg).locked = [])
    (hset : ∀ e ∈ s.entries, e.isJunction → e.held = [])
    (h : (returnRegister loan : Emit Unit) s = .ok u s') : s'.Tidy := by
  have hb : ((s.registers.unlock loan.reg).release loan.reg).Balanced [] := (hbal.unlock _).release
  have hl : ((s.registers.unlock loan.reg).release loan.reg).locked = [] := by
    rwa [locked_release]
  rw [returnRegister] at h
  split at h
  · rename_i var c hr
    obtain ⟨victim, -, hr⟩ := Option.bind_eq_some_iff.mp hr
    obtain ⟨d, hd, heq⟩ := Option.map_eq_some_iff.mp hr
    obtain ⟨rfl, rfl⟩ := Prod.mk.inj heq
    have ht : Tidy { s with registers := d } :=
      ⟨hb.restore? hd, (locked_restore? hd).trans hl, hset⟩
    exact ((plain_home _ _).bind fun _ => plain_write rfl).keeps ht h
  · cases h
    exact ⟨hb, hl, hset⟩

lemma keeps_withRegister {body : Reg → Emit α} (hb : ∀ r, Plain (body r)) :
    Keeps (withRegister body) := by
  intro s a s' hs hm
  obtain ⟨loan, c, t, ht, hrun, hba⟩ := withRegister_eq_ok.mp hm
  have hp : Plain (underLoan loan body) := by
    rw [underLoan]
    cases loan.spill with
    | none => exact hb _
    | some store => exact (plain_spill store).bind fun _ => hb _
  -- the cache is as it was taken, and every new line is straight
  obtain ⟨hreg, hent⟩ := hp hrun
  refine tidy_returnRegister (hreg ▸ (hs.balanced.take? ht).lock _) ?_ (fun e he hj => ?_) hba
  · rw [hreg]
    change ((c.lock loan.reg).unlock loan.reg).locked = []
    simp [lock, unlock, show c.locked = [] from (locked_take? ht).trans hs.unlocked]
  · rcases hent e he with he | hno
    · exact hs.settled e he hj
    · simp [hno] at hj

/-! ### Labels and slots -/

lemma plain_newLabel (stem : String) : Plain (newLabel stem) :=
  plain_of_unchanged fun _ _ _ hm => by cases hm; exact ⟨rfl, rfl⟩

lemma plain_takeSlots (n : Nat) : Plain (takeSlots n) :=
  plain_of_unchanged fun _ _ _ hm => by cases hm; exact ⟨rfl, rfl⟩

lemma clears_branchPoint : Clears branchPoint :=
  clears_evictAll.thenStays fun spills => (plain_storeAll spills).stays

lemma plain_get : Plain (get : Emit Emitter) :=
  plain_of_unchanged fun _ _ _ hm => by cases hm; exact ⟨rfl, rfl⟩

/-! ### Calls of the run-time library -/

lemma plain_passAll {ι : Type} (args : List ι) (f : ι → Operand × Int) :
    Plain (writeAll (args.flatMap fun i => passOperand (f i).1 (f i).2)) := by
  refine plain_writeAll ?_
  rw [List.all_flatMap, List.all_eq_true]
  intro i _
  rw [passOperand]
  split <;> rfl

lemma plain_writeRuntimeCall (h : name ∉ splatCalls) : Plain (writeRuntimeCall name false) := by
  intro s a s' hm
  cases hm
  refine ⟨rfl, fun e he => ?_⟩
  rcases Array.mem_push.mp he with he | rfl
  · exact .inl he
  · right
    simpa [Entry.isJunction, Line.call, splatCalls] using h

lemma stays_writeRuntimeCall (name : String) (guarded : Bool) : Stays (writeRuntimeCall name guarded) :=
  stays_push (.call name) (.runtimeCall guarded)

lemma stays_callRuntime (x : Exits) (name : String) (args : List Operand) :
    Stays (callRuntime x name args) := by
  have hevi : Stays (withCache
      (if x.isGuarded then evictAll else evictCallerSaved)) := by
    split
    · exact clears_evictAll.stays
    · exact stays_evictCallerSaved
  exact hevi.bind fun spills => (plain_storeAll spills).stays.bind fun _ =>
    (stays_write _).bind fun _ => (stays_writeAll _).bind fun _ =>
    (stays_writeRuntimeCall _ _).bind fun _ => stays_write _

/-- The variables that a call of the run-time library would spoil are home, and in a protected region
all of them are. -/
lemma keeps_callRuntime (x : Exits) (args : List Operand) (h : name ∉ splatCalls) :
    Keeps (callRuntime x name args) := by
  cases hx : x.isGuarded with
  | true =>
    have hall : Clears (callRuntime x name args) := by
      rw [callRuntime, hx]
      exact clears_evictAll.thenStays fun spills => (plain_storeAll spills).stays.bind fun _ =>
        (stays_write _).bind fun _ => (stays_writeAll _).bind fun _ =>
        (stays_writeRuntimeCall _ _).bind fun _ => stays_write _
    exact hall.keeps
  | false =>
    rw [callRuntime, hx]
    exact keeps_evictCallerSaved.bind fun spills => Plain.keeps <|
      (plain_storeAll spills).bind fun _ => (plain_write rfl).bind fun _ =>
      (plain_passAll _ id).bind fun _ => (plain_writeRuntimeCall h).bind fun _ => plain_write rfl

/-! ### Calls of compiled code -/

lemma stays_loadReceiverClass (receiver : Operand) : Stays (loadReceiverClass receiver) := by
  have htop : Stays loadClassOfTop :=
    (plain_newLabel _).stays.bind fun _ => (plain_newLabel _).stays.bind fun _ => stays_writeAll _
  fun_cases loadReceiverClass receiver with
  | case1 | case3 => exact stays_write _
  | case2 | case4 => exact htop

lemma plain_breakSite (id : Int) : Plain (breakSite id) := by
  refine plain_get.bind fun s => ?_
  split
  case' isTrue => refine Plain.fail.bind fun _ => ?_
  all_goals
    refine Plain.bind (plain_of_unchanged fun _ _ _ hm => ?_) fun _ =>
      (plain_takeSlots 1).bind fun _ => (plain_writeAll rfl).bind fun _ => Plain.pure _
    cases hm
    exact ⟨rfl, rfl⟩

lemma stays_invokePlain (target : CallTarget) (call : CallArgs) : Stays (invokePlain target call) := by
  refine (stays_write _).bind fun _ => (stays_writeAll _).bind fun _ => (stays_write _).bind fun _ => ?_
  split
  · exact (stays_loadReceiverClass _).bind fun _ => (stays_write _).bind fun _ => stays_write _
  · exact (stays_write _).bind fun _ => stays_write _

lemma clears_invoke (x : Exits) (target : CallTarget) (call : CallArgs) :
    Clears (invoke x target call) := by
  refine clears_branchPoint.thenStays fun _ => ?_
  have hsplat array : Stays (invokeSplat x target call array) := by
    cases target <;> exact stays_callRuntime _ _ _
  cases call.breakId
  case' some id =>
    have hsi : Stays (some <$> breakSite id) := (plain_breakSite id).stays.map fun _ _ hs => hs
    refine hsi.bind fun resume => ?_
  all_goals
    cases call.splat
    case' none => refine (stays_invokePlain _ _).bind fun _ => ?_
    case' some => refine (hsplat _).bind fun _ => ?_
  iterate 2
    cases resume
    · exact stays_write _
    · exact (stays_write _).bind fun _ => stays_write _
  all_goals exact stays_write _

end Emit

end Garnet
