import Garnet.Code.Frame
import Garnet.Integer.Basic
import Garnet.Register.Borrow

/-!
# Writing code

The value that code computes is in `%eax`, and `self` in `%esi`. Local variables are cached in the
registers of the pool. They are all at home wherever control can come from more than one place:
before a label, a jump, or a call of compiled code.

Each line is kept with the variables that were in registers when it was written.
-/

namespace Garnet

open Reg

/-! ### Literals -/

/-- The literals that code refers to. -/
structure Literals where
  strings : Array Bytes := #[]
  symbols : Array String := #[]
  integers : Array HeapInteger := #[]

namespace Literals

/-- The number of an item, which is added if it is not there. -/
def intern {α : Type} [BEq α] (items : Array α) (a : α) : Nat × Array α :=
  match items.idxOf? a with
  | some i => (i, items)
  | none => (items.size, items.push a)

def string (l : Literals) (bytes : Bytes) : Nat × Literals :=
  let (i, strings) := intern l.strings bytes
  (i, { l with strings })

def symbol (l : Literals) (name : String) : Nat × Literals :=
  let (i, symbols) := intern l.symbols name
  (i, { l with symbols })

/-- The number of an integer, which is new each time. -/
def integer (l : Literals) (h : HeapInteger) : Nat × Literals :=
  (l.integers.size, { l with integers := l.integers.push h })

end Literals

/-! ### Where control goes -/

/-- The loop around a place: where `next` and `break` go. -/
structure LoopExit where
  next : String
  exit : String
  /-- The protected regions around the loop. -/
  depth : Nat

/-- A protected region: what has to happen on the way out. -/
structure Region where
  /-- The code that runs on every way out. -/
  ensure : Tree
  /-- Where the handler record is, if one is linked. -/
  handler : Option Int := none
  /-- Where `retry` goes, in a rescue clause. -/
  retry : Option String := none

/-- What is around a place in a routine, innermost first. -/
structure Exits where
  loops : List LoopExit := []
  regions : List Region := []

namespace Exits

def isGuarded (x : Exits) : Bool := !x.regions.isEmpty

def weight (x : Exits) : Nat := x.regions.foldr (fun r n => r.ensure.size + n) 0

def inRegion (x : Exits) (r : Region) : Exits := { x with regions := r :: x.regions }

def inLoop (x : Exits) (next exit : String) : Exits :=
  { x with loops := ⟨next, exit, x.regions.length⟩ :: x.loops }

end Exits

/-! ### State -/

/-- What a line is for. -/
inductive Origin where
  | code
  /-- A call of the run-time library, perhaps in a protected region. -/
  | runtimeCall (guarded : Bool)
deriving DecidableEq, Repr

/-- A line, and the variables in registers when it was written. -/
structure Entry where
  line : Line
  held : List HeldVar
  origin : Origin := .code

/-- What all routines of a program share. -/
structure Shared where
  /-- The number of labels made so far. -/
  labels : Nat := 0
  literals : Literals := {}
  /-- The places that `break` goes to. -/
  breakSites : List Int := []

/-- The state of writing a routine. -/
structure Emitter where
  frame : Frame
  shared : Shared
  entries : Array Entry := #[]
  registers : Cache
  nextSlot : Nat
  maxSlot : Nat
  /-- Whether slots that are free again are taken again. -/
  reuse : Bool := true

abbrev Emit := EStateM CompileError Emitter

namespace Emit

def fail {α : Type} (cause : EmitCause) (span : Span) : Emit α := throw (.emit cause (some span))

def write (line : Line) : Emit Unit :=
  modify fun s => { s with entries := s.entries.push ⟨line, s.registers.view, .code⟩ }

def writeAll (lines : List Line) : Emit Unit := lines.forM write

def writeRuntimeCall (name : String) (guarded : Bool) : Emit Unit :=
  modify fun s =>
    { s with entries := s.entries.push ⟨.call name, s.registers.view, .runtimeCall guarded⟩ }

def home (name : String) (span : Option Span) : Emit Operand := do
  let frame := (← get).frame
  match frame.home? name with
  | some o => return o
  | none => throw (.emit (.undefinedVariable name frame.label) span)

instance : RegisterOwner CompileError Emitter where
  registers := Emitter.registers
  setRegisters c s := { s with registers := c }
  spill sp := do
    let o ← home sp.var none
    write (.movl sp.reg o)
  reload var reg := do
    let o ← home var none
    write (.movl o reg)
  exhausted := .emit .registersExhausted none

def withCache {α : Type} (f : Cache → α × Cache) : Emit α :=
  modifyGet fun s =>
    let (a, c) := f s.registers
    (a, { s with registers := c })

/-! ### Labels and jumps -/

def newLabel (stem : String) : Emit String := do
  modify fun s => { s with shared := { s.shared with labels := s.shared.labels + 1 } }
  return ".L" ++ stem ++ Numeral.decimal (← get).shared.labels

def storeAll (spills : List Spill) : Emit Unit := spills.forM RegisterOwner.spill

/-- Bring all variables home, since control may part here. -/
def branchPoint : Emit Unit := do storeAll (← withCache Cache.evictAll)

/-- What follows a jump is reached only from elsewhere, where no variable is in a register. -/
def unreachable : Emit Unit := do
  let _ ← withCache Cache.evictAll

def bindLabel (label : String) : Emit Unit := do
  branchPoint
  write (.label label)

def jump (label : String) : Emit Unit := do
  branchPoint
  write (.jmp label)
  unreachable

/-- Go to a label if the value is `nil` or `false`. -/
def branchIfFalse (label : String) : Emit Unit := do
  branchPoint
  writeAll [.cmpl .nil eax, .jumpIf "je" label, .cmpl (.bool false) eax, .jumpIf "je" label]

/-- Go to a label unless the value is `nil` or `false`. -/
def branchIfTrue (label : String) : Emit Unit := do
  branchPoint
  let skip ← newLabel "falsy"
  writeAll [.cmpl .nil eax, .jumpIf "je" skip, .cmpl (.bool false) eax, .jumpIf "jne" label, .label skip]

def epilogue : Emit Unit := do
  writeAll [.ins "leave" [], .ins "ret" []]
  unreachable

/-! ### Slots -/

/-- Take `n` slots in a row; gives the first one. -/
def takeSlots (n : Nat) : Emit Nat :=
  modifyGet fun s =>
    (s.nextSlot, { s with nextSlot := s.nextSlot + n, maxSlot := max s.maxSlot (s.nextSlot + n) })

def stash : Emit Operand := do
  let t := Operand.slot (← takeSlots 1)
  write (.movl eax t)
  return t

/-- The next slot; giving it to `release` frees the slots taken since. -/
def mark : Emit Nat := return (← get).nextSlot

def release (mark : Nat) : Emit Unit :=
  modify fun s => { s with nextSlot := if s.reuse then max mark s.frame.named else s.nextSlot }

/-- The distance of four slots in a row for a handler record. -/
def takeRecord : Emit Int := return slotDisp ((← takeSlots 4) + 3)

end Emit

end Garnet
