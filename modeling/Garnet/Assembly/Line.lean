import Garnet.Literal.Escape
import Garnet.Literal.Numeral

/-!
# Assembly lines

Registers, operands and lines of 32-bit x86 assembly, and their text in the syntax in which the
source operand stands before the destination.
-/

namespace Garnet

/-- A register of the machine. -/
inductive Reg where
  | eax | ebx | ecx | edx | esi | edi | ebp | esp
deriving DecidableEq, Repr, Inhabited

namespace Reg

def name : Reg → String
  | .eax => "%eax"
  | .ebx => "%ebx"
  | .ecx => "%ecx"
  | .edx => "%edx"
  | .esi => "%esi"
  | .edi => "%edi"
  | .ebp => "%ebp"
  | .esp => "%esp"

def all : List Reg := [.eax, .ebx, .ecx, .edx, .esi, .edi, .ebp, .esp]

def ofName? (s : String) : Option Reg := all.find? (·.name == s)

/-- A function of the run-time library may change the register. -/
def isCallerSaved : Reg → Bool
  | .eax | .ecx | .edx => true
  | _ => false

end Reg

/-- An operand of an instruction. -/
inductive Operand where
  | reg (r : Reg)
  /-- A number. -/
  | imm (n : Int)
  /-- The address of a symbol. -/
  | addr (label : String)
  /-- The word at a distance from where a register points. -/
  | mem (base : Reg) (disp : Int)
  /-- The word at a distance that a symbol gives. -/
  | symMem (label : String) (base : Reg)
  /-- The word at a symbol. -/
  | abs (label : String)
  /-- The target of a jump or a call that an operand holds. -/
  | indirect (o : Operand)
deriving DecidableEq, Repr, Inhabited

def Operand.text : Operand → String
  | .reg r => r.name
  | .imm n => "$" ++ Numeral.decimal n
  | .addr label => "$" ++ label
  | .mem base disp =>
    (if disp = 0 then "" else Numeral.decimal disp) ++ "(" ++ base.name ++ ")"
  | .symMem label base => label ++ "(" ++ base.name ++ ")"
  | .abs label => label
  | .indirect o => "*" ++ o.text

instance : Coe Reg Operand := ⟨.reg⟩

/-- A line of assembly. -/
inductive Line where
  | ins (opcode : String) (operands : List Operand)
  | label (name : String)
  | directive (text : String)
  | comment (text : String)
deriving DecidableEq, Repr

namespace Line

def text : Line → String
  | .ins opcode [] => "\t" ++ opcode
  | .ins opcode operands => "\t" ++ opcode ++ "\t" ++ ", ".intercalate (operands.map Operand.text)
  | .label name => name ++ ":"
  | .directive text => "\t" ++ text
  | .comment text => "\t# " ++ text

/-! ### Instructions -/

def movl (src dst : Operand) : Line := .ins "movl" [src, dst]

def leal (src : Operand) (dst : Reg) : Line := .ins "leal" [src, dst]

def addl (src dst : Operand) : Line := .ins "addl" [src, dst]

def subl (src dst : Operand) : Line := .ins "subl" [src, dst]

def cmpl (src dst : Operand) : Line := .ins "cmpl" [src, dst]

def testl (src dst : Operand) : Line := .ins "testl" [src, dst]

def pushl (src : Operand) : Line := .ins "pushl" [src]

def popl (dst : Reg) : Line := .ins "popl" [dst]

def call (target : String) : Line := .ins "call" [.abs target]

/-- A call of the code whose address an operand holds. -/
def callIndirect (target : Operand) : Line := .ins "call" [.indirect target]

def jmp (target : String) : Line := .ins "jmp" [.abs target]

def jumpIf (opcode target : String) : Line := .ins opcode [.abs target]

end Line

def assemblyText (lines : List Line) : String := lines.foldl (fun acc l => acc ++ l.text ++ "\n") ""

/-- The directive that places bytes and a zero byte behind them. -/
def asciz (bytes : Bytes) : String := ".asciz \"" ++ Escape.encode bytes ++ "\""

/-- The least multiple of 16 that is no smaller. -/
def align16 (n : Nat) : Nat := (n + 15) / 16 * 16

end Garnet
