import Garnet.Assembly.Line
import Mathlib.Tactic.Lemma

/-!
# Running lines of assembly

A machine with the eight registers of 32 bits and the flags that conditional jumps test. `Machine.run`
carries out lines that compute in registers: moves, sums, differences, products, shifts and comparisons,
and the conditional jumps behind them. What reads or writes memory, or calls, is not carried out here.

A flag that an instruction leaves undefined has no value afterwards, so no later jump can depend on it.
-/

namespace Garnet

open Reg

/-- The flags that conditional jumps test; `none` for a flag without a defined value. -/
structure Flags where
  overflow : Option Bool := none
  sign : Option Bool := none
  zero : Option Bool := none
deriving DecidableEq, Repr

/-- The registers and flags of the machine. -/
structure Machine where
  reg : Reg → BitVec 32
  flags : Flags

/-- What a line leads to: the line behind it, or a label. -/
inductive Machine.Next where
  | falls (m : Machine)
  | jumps (label : String) (m : Machine)

/-- The flags of a result, with the overflow flag given. -/
def Flags.ofResult (overflow : Bool) (w : BitVec 32) : Flags := ⟨some overflow, some w.msb, some (w == 0)⟩

/-- Whether a conditional jump is taken; `none` if it tests a flag without a value, or if the machine
has no such jump. -/
def Flags.satisfies? (f : Flags) (opcode : String) : Option Bool := match opcode with
  | "jo" => f.overflow
  | "je" => f.zero
  | "jl" => return (← f.sign) != (← f.overflow)
  | "jge" => return (← f.sign) == (← f.overflow)
  | "jle" => return (← f.zero) || (← f.sign) != (← f.overflow)
  | "jg" => return !(← f.zero) && (← f.sign) == (← f.overflow)
  | _ => none

namespace Machine

/-- The value of an operand that needs no memory. -/
def value? (m : Machine) : Operand → Option (BitVec 32)
  | .reg r => some (m.reg r)
  | .imm n => some (.ofInt 32 n)
  | _ => none

/-- The machine with another value in a register. -/
def set (m : Machine) (r : Reg) (w : BitVec 32) : Machine :=
  { m with reg := fun s => if s = r then w else m.reg s }

def withFlags (m : Machine) (f : Flags) : Machine := { m with flags := f }

/-- The machine after an instruction, if it computes in registers. The source operand stands before the
destination. -/
def execute? (m : Machine) (opcode : String) (operands : List Operand) : Option Machine :=
  match opcode, operands with
  | "movl", [src, .reg dst] => return m.set dst (← m.value? src)
  | "leal", [.mem base disp, .reg dst] => some (m.set dst (m.reg base + .ofInt 32 disp))
  | "addl", [src, .reg dst] => do
    let b ← m.value? src
    let w := m.reg dst + b
    return (m.set dst w).withFlags (.ofResult ((m.reg dst).saddOverflow b) w)
  | "subl", [src, .reg dst] => do
    let b ← m.value? src
    let w := m.reg dst - b
    return (m.set dst w).withFlags (.ofResult ((m.reg dst).ssubOverflow b) w)
  | "cmpl", [src, .reg dst] => do
    let b ← m.value? src
    return m.withFlags (.ofResult ((m.reg dst).ssubOverflow b) (m.reg dst - b))
  | "orl", [src, .reg dst] => do
    let w := m.reg dst ||| (← m.value? src)
    return (m.set dst w).withFlags (.ofResult false w)
  | "sarl", [.imm 1, .reg dst] =>
    let w := (m.reg dst).sshiftRight 1
    some ((m.set dst w).withFlags (.ofResult false w))
  | "imull", [src, .reg dst] => do
    let b ← m.value? src
    return (m.set dst (m.reg dst * b)).withFlags { overflow := (m.reg dst).smulOverflow b }
  | "imull", [.reg src] =>
    let w := (m.reg eax).signExtend 64 * (m.reg src).signExtend 64
    let low := w.setWidth 32
    some (((m.set eax low).set edx (w.extractLsb' 32 32)).withFlags
      { overflow := (m.reg eax).smulOverflow (m.reg src) })
  | "cltd", [] => some (m.set edx ((m.reg eax).sshiftRight 31))
  | _, _ => none

def step? (m : Machine) : Line → Option Next
  | .ins opcode [.abs label] => do
    return if ← m.flags.satisfies? opcode then .jumps label m else .falls m
  | .ins opcode operands => (m.execute? opcode operands).map .falls
  | _ => none

/-- What lines lead to, one behind the other until a jump is taken. -/
def run? (m : Machine) : List Line → Option Next
  | [] => some (.falls m)
  | line :: lines => do
    match ← m.step? line with
    | .falls m' => m'.run? lines
    | .jumps label m' => return .jumps label m'

@[simp]
lemma reg_set (m : Machine) (r s : Reg) (w : BitVec 32) :
    (m.set r w).reg s = if s = r then w else m.reg s := rfl

@[simp]
lemma reg_withFlags (m : Machine) (f : Flags) (r : Reg) : (m.withFlags f).reg r = m.reg r := rfl

@[simp]
lemma flags_withFlags (m : Machine) (f : Flags) : (m.withFlags f).flags = f := rfl

section

variable {m m' : Machine} {line : Line}

lemma run?_cons_of_falls (h : m.step? line = some (.falls m')) (lines : List Line) :
    m.run? (line :: lines) = m'.run? lines := by
  simp [run?, h]

lemma run?_cons_jumpIf {opcode label : String} {taken : Bool}
    (h : m.flags.satisfies? opcode = some taken) (lines : List Line) :
    m.run? (.jumpIf opcode label :: lines) = if taken then some (.jumps label m) else m.run? lines := by
  cases taken <;> simp [run?, step?, Line.jumpIf, h]

end

end Machine

end Garnet
