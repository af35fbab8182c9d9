import Garnet.Code.Routine

/-!
# The code of a program

One text for the assembler: the routines, the entry point, and the data.
-/

namespace Garnet

open Reg

/-! ### Static data -/

namespace Data

def long (words : List String) : Line := .directive (".long\t" ++ ", ".intercalate words)

/-- The items of a list with their numbers, as text. -/
def numbered {α : Type} (items : List α) : List (String × α) :=
  items.mapIdx fun i a => (Numeral.decimal i, a)

def offsets (names : List String) : List Line :=
  (names.mapIdx fun i name =>
    let label := Label.methodOffset name
    [Line.directive (".globl\t" ++ label),
      .directive (".equ\t" ++ label ++ ", " ++ Numeral.decimal (SlotTable.byteOffset i))]).flatten

/-- The code that fills the places of methods that a class does not have. -/
def thunks (names : List String) : List Line :=
  (numbered names).flatMap fun (i, name) =>
    [.label (Label.missingMethod name), .movl (.addr (".Lmname_" ++ i)) eax, .jmp "__method_missing"]

/-- A class object: its class, the size of its instances, its name, its superclass, and its methods. -/
def classObject (t : ClassTable) (missing : List String) (i : String) (id : ClassId) : List Line :=
  let c := t.info id
  let isMeta := c.kind = .metaclass
  let cls := if isMeta then "Class" else (c.metaclass.map t.label).getD "Class"
  let size := if isMeta then 4 + t.slots.size else t.instanceSize id
  let parent := ((t.parent? id).map t.label).getD "0"
  .directive (".globl\t" ++ c.label) :: .label c.label
    :: long [cls, Numeral.decimal size, ".Lcname_" ++ i, parent]
    :: (t.vtable id).zipWith (fun entry thunk => long [entry.getD thunk]) missing

def words (labels : List String) (value : String) : List Line :=
  labels.flatMap fun label => [.label label, long [value]]

/-- A heap integer: its class, its sign, the number of its limbs, and its limbs. -/
def integer (i : String) (h : HeapInteger) : List Line :=
  [.label (".Lint" ++ i),
    long ("Integer" :: Numeral.decimal h.sign.toInt :: Numeral.decimal h.limbs.length
      :: h.limbs.map fun l => Numeral.decimal l.toNat)]

def texts (stem : String) (items : List Bytes) : List Line :=
  (numbered items).flatMap fun (i, bytes) => [.label (stem ++ i), .directive (asciz bytes)]

def labels (stem : String) (count : Nat) : List String :=
  (List.range count).map fun (i : Nat) => stem ++ Numeral.decimal i

/-- The data of a program with the literals of its code. -/
def lines (p : Program) (l : Literals) : List Line :=
  let t := p.classes
  let names := t.slots.names.toList
  let missing := names.map Label.missingMethod
  let ids := List.range t.classes.size
  offsets names ++ thunks names
    ++ [.directive ".data", .directive ".align\t4"]
    ++ ((numbered ids).flatMap fun (i, id) => classObject t missing i id)
    ++ words p.statics.keys "__nil"
    ++ words (labels "__once_" p.classSites) "0"
    ++ words (labels ".Lsymc_" l.symbols.size) "0"
    ++ ((numbered l.integers.toList).flatMap fun (i, h) => integer i h)
    ++ [.directive ".section\t.rodata"]
    ++ texts ".Lcname_" (t.classes.toList.map fun c => utf8 c.name)
    ++ texts ".Lmname_" (names.map utf8)
    ++ texts ".Lstr" l.strings.toList
    ++ texts ".Lsym_" (l.symbols.toList.map utf8)

end Data

/-- The call of a unit's top level, with the main object as `self`. -/
def runUnit (label : String) : List Line :=
  [.movl (.abs "__main_object") eax, .movl eax (.mem esp 0), .movl .nil (.mem esp 4),
    .movl (.imm 2) ebx, .call label]

/-- The entry point: prepare the run-time library and run the units in order. Four words stand on the
stack before the 28 bytes, of which 12 align it and 16 hold arguments. -/
def entryPoint (units : List String) : List Line :=
  [.directive ".globl\tmain", .label "main", .pushl ebp, .movl esp ebp, .pushl ebx, .pushl esi,
    .pushl edi, .subl (.imm 28) esp, .movl (.mem ebp 12) eax, .movl eax (.mem esp 4),
    .movl (.mem ebp 8) eax, .movl eax (.mem esp 0), .call "__runtime_init"]
    ++ units.flatMap runUnit
    ++ [.addl (.imm 28) esp, .movl (.imm 0) eax, .popl edi, .popl esi, .popl ebx, .popl ebp, .ins "ret" []]

def emitRoutines : List Routine → Shared → Except CompileError (List Line × Shared)
  | [], shared => .ok ([], shared)
  | r :: rs, shared => do
    let (lines, shared) ← emitRoutine r shared
    let (rest, shared) ← emitRoutines rs shared
    return (lines ++ rest, shared)

def assembleLines (p : Program) : Except CompileError (List Line) := do
  let (code, shared) ← emitRoutines p.routines {}
  return .directive ".text" :: code ++ entryPoint p.units ++ Data.lines p shared.literals

def assemble (p : Program) : Except CompileError String := assemblyText <$> assembleLines p

end Garnet
