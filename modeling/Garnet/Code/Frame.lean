import Garnet.Program.Basic
import Garnet.Register.Cache

/-!
# Stack frames

The words of a stack frame, by their distance from where `%ebp` points:

* `4 * (i + 2)`: argument word `i`, which are the receiver, the block, then the arguments
* `4`, `0`: the return address and the frame below
* `-4`: the number of arguments, if the routine needs it
* `-4 * (i + 2)`: slot `i`, which are variables first, then temporaries
-/

namespace Garnet

open Reg

def slotDisp (slot : Nat) : Int := -4 * (slot + 2)

def argDisp (word : Nat) : Int := 4 * (word + 2)

/-- The value `nil`. -/
def Operand.nil : Operand := .addr "__nil"

/-- The value `true` or `false`. -/
def Operand.bool (b : Bool) : Operand := .addr (if b then "__true" else "__false")

def Operand.slot (i : Nat) : Operand := .mem ebp (slotDisp i)

def Operand.arg (i : Nat) : Operand := .mem ebp (argDisp i)

/-- Where the variables of a routine live. -/
structure Frame where
  /-- The label of the routine. -/
  label : String
  span : Span
  /-- The home of each variable; the first entry of a name counts. -/
  homes : List (String × Operand)
  /-- The slots that hold variables; temporaries follow. -/
  named : Nat

namespace Frame

def home? (f : Frame) (name : String) : Option Operand := f.homes.lookup name

def slotted (r : Routine) : List String :=
  r.locals ++ r.rest.toList ++ if r.env.isSome then ["__env__"] else []

/-- The frame of a routine. A name in a slot hides the same name among the arguments. -/
def ofRoutine (r : Routine) : Frame where
  label := r.label
  span := r.span
  homes :=
    (((slotted r).mapIdx fun i v => (v, Operand.slot i)).reverse
      ++ (if r.kind = .block then [("__penv__", .arg 2)] else []))
      ++ (r.blockParam, .arg 1)
      :: (r.params.mapIdx fun i p => (p, Operand.arg (r.firstParamWord + i))).reverse
  named := (slotted r).length

/-- How often the body of a routine mentions each of its variables. -/
def uses (f : Frame) (body : Tree) : List (String × Nat) :=
  let names := body.subtrees.filterMap Tree.name?
  (f.homes.map fun (v, _) => (v, names.count v)).filter fun (_, n) => 0 < n

end Frame

/-- Whether a routine needs the number of its arguments. -/
def Routine.usesNumArgs (r : Routine) : Bool := r.rest.isSome || r.body.subtrees.any (·.is .numArgs)

namespace Prologue

/-- The bytes to reserve for `slots` slots. With what is on the stack already, the stack pointer is a
multiple of 16 again. -/
def reserve (slots : Nat) (numArgs : Bool) : Nat := align16 (12 + 4 * slots) - if numArgs then 12 else 8

/-- Collect the arguments that are left over into an array. -/
def collectRest (r : Routine) (home : Option Operand) : List Line :=
  let fixed := r.firstParamWord + r.params.length
  [.movl (.mem ebp (-4)) eax, .subl (.imm fixed) eax, .subl (.imm 16) esp,
    .movl eax (.mem esp 4), .leal (.arg fixed) eax, .movl eax (.mem esp 0),
    .call "__splat_to_array", .addl (.imm 16) esp]
    ++ (home.map fun h => Line.movl eax h).toList

/-- Move a parameter that is captured into word `i` of the captured variables. -/
def moveParam (r : Routine) (f : Frame) (i : Nat) (name : String) : List Line :=
  if r.params.contains name || name == r.blockParam || r.rest == some name then
    match f.home? name with
    | some home => [.movl home ecx, .movl ecx (.mem eax (4 * (i + 2)))]
    | none => []
  else []

def makeEnv (r : Routine) (f : Frame) (env : List String) : List Line :=
  [.subl (.imm 16) esp, .movl (.imm (env.length + 2)) (.mem esp 0), .call "__alloc_env",
    .addl (.imm 16) esp]
    ++ ((f.home? "__env__").map fun h => Line.movl eax h).toList
    ++ (if r.kind = .block then [.movl (.arg 2) ecx, .movl ecx (.mem eax 0)]
      else [.movl .nil (.mem eax 0)])
    ++ .movl ebp (.mem eax 4) :: (env.mapIdx (moveParam r f)).flatten

/-- The code before the body of a routine whose body uses `slots` slots. -/
def lines (r : Routine) (f : Frame) (slots : Nat) : List Line :=
  let numArgs := r.usesNumArgs
  let size := reserve slots numArgs
  [.label r.label, .pushl ebp, .movl esp ebp]
    ++ (if numArgs then [.pushl ebx] else [])
    ++ (if size > 0 then [.subl (.imm size) esp] else [])
    ++ [.movl (.mem ebp 8) esi]
    ++ (List.range f.named).map (fun i => .movl .nil (.slot i))
    ++ (match r.rest with
      | some rest => collectRest r (f.home? rest)
      | none => [])
    ++ match r.env with
      | some env => makeEnv r f env
      | none => []

end Prologue

end Garnet
