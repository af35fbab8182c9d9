import Garnet.Code.Call

/-!
# Integer arithmetic in line

A fixnum `n` is the word `2 * n + 1`. When both operands are fixnums, an operation is carried out on
the words. If the result does not fit, it is computed again in 64 bits and boxed. Heap integers are
left to the run-time library, and any other receiver gets an ordinary call.
-/

namespace Garnet

open Reg

/-- An operation that is carried out in line. -/
inductive ArithOp where
  | add | sub | mul | lt | le | gt | ge | eq
deriving DecidableEq, Repr

namespace ArithOp

def name : ArithOp → String
  | .add => "+"
  | .sub => "-"
  | .mul => "*"
  | .lt => "<"
  | .le => "<="
  | .gt => ">"
  | .ge => ">="
  | .eq => "=="

def all : List ArithOp := [.add, .sub, .mul, .lt, .le, .gt, .ge, .eq]

def ofName? (s : String) : Option ArithOp := all.find? (·.name == s)

/-- The jump that is taken if a comparison holds. -/
def condition? : ArithOp → Option String
  | .lt => some "jl"
  | .le => some "jle"
  | .gt => some "jg"
  | .ge => some "jge"
  | .eq => some "je"
  | _ => none

/-- The function for heap integers. Equality is left to the receiver. -/
def helper? : ArithOp → Option String
  | .add => some "__int_add"
  | .sub => some "__int_sub"
  | .mul => some "__int_mul"
  | .eq => none
  | _ => some "__int_cmp"

/-- The operation on the words of two fixnums in `%ecx` and `%edx`. -/
def fast (op : ArithOp) (overflow : String) : List Line :=
  match op with
  | .add => [.leal (.mem ecx (-1)) eax, .addl edx eax, .jumpIf "jo" overflow]
  | .sub => [.movl ecx eax, .subl edx eax, .jumpIf "jo" overflow, .ins "orl" [.imm 1, eax]]
  | .mul =>
    [.movl ecx eax, .ins "sarl" [.imm 1, eax], .leal (.mem edx (-1)) ebx,
      .ins "imull" [ebx, eax], .jumpIf "jo" overflow, .ins "orl" [.imm 1, eax]]
  | _ => []

/-- The exact result for two fixnums in `%ecx` and `%edx`, as 64 bits in `%edx` and `%eax`. -/
def wide (op : ArithOp) : List Line :=
  [.movl ecx eax, .ins "sarl" [.imm 1, eax], .movl edx ebx, .ins "sarl" [.imm 1, ebx]]
    ++ match op with
      | .mul => [.ins "imull" [ebx]]
      | .sub => [.subl ebx eax, .ins "cltd" []]
      | _ => [.addl ebx eax, .ins "cltd" []]

/-- Load two operands and go to `slow` unless both are fixnums. -/
def test (a b : Operand) (slow : String) : List Line :=
  [.movl a ecx, .movl b edx, .movl ecx eax, .ins "andl" [edx, eax], .testl (.imm 1) eax, .jumpIf "jz" slow]

end ArithOp

namespace Emit

/-- The value `true` if a condition holds and `false` if not; then go to a label. -/
def boolean (condition done : String) : Emit Unit := do
  let yes ← newLabel "true"
  writeAll [.jumpIf condition yes, .movl (.bool false) eax, .jmp done, .label yes,
    .movl (.bool true) eax, .jmp done]

section

variable (x : Exits) (op : ArithOp) (a b : Operand) (done : String)

def arithFixnum (overflow : String) : Emit Unit := do
  match op.condition? with
  | some cc =>
    write (.cmpl edx ecx)
    boolean cc done
  | none =>
    writeAll (op.fast overflow ++ [.jmp done, .label overflow] ++ op.wide)
    callRuntime x "__int_from_i64" [eax, edx]
    write (.jmp done)

/-- The operation on integers of which one at least is boxed. -/
def arithBoxed (helper : String) : Emit Unit := do
  let heap ← newLabel "heap"
  let send ← newLabel "send"
  writeAll [.testl (.imm 1) ecx, .jumpIf "jnz" heap, .cmpl (.addr "Integer") (.mem ecx 0),
    .jumpIf "jne" send, .label heap]
  callRuntime x helper [a, b]
  match op.condition? with
  | some cc =>
    write (.cmpl (.imm 0) eax)
    boolean cc done
  | none => write (.jmp done)
  write (.label send)

end

section

variable (rec : Exits → Tree → Emit Unit) (x : Exits)

/-- The value of a tree as a number or in a slot, so that it can be read again. -/
def arithOperand (e : Tree) : Emit Operand := do
  match immediate? e with
  | some (.imm n) => return .imm n
  | _ =>
    rec x e
    stash

def arithmetic (op : ArithOp) (left right : Tree) : Emit Unit := do
  let mark ← mark
  let a ← arithOperand rec x left
  let b ← arithOperand rec x right
  let slow ← newLabel "slow"
  let overflow ← newLabel "ovf"
  let done ← newLabel "done"
  branchPoint
  writeAll (ArithOp.test a b slow)
  arithFixnum x op done overflow
  write (.label slow)
  if let some helper := op.helper? then arithBoxed x op a b done helper
  invoke x (.send op.name) { receiver := a, args := [b] }
  write (.label done)
  release mark

/-- A call on a receiver, in line if the method may be an operation on integers. -/
def send (n : Node) : Emit Unit := do
  let name ← nameAt n 1
  match ArithOp.ofName? name, (n.child 2).children with
  | some op, [arg] =>
    if !arg.is .splat && (n.child 3).isAbsent then arithmetic rec x op (n.child 0) arg
    else callSend rec x n
  | _, _ => callSend rec x n

end

end Emit

end Garnet
