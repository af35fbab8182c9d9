import Garnet.Code.State

/-!
# Calls

A call passes the receiver, the block and the arguments on the stack, and their number in `%ebx`. A
method is found in the method table of the receiver's class; `super` and class bodies are called by
their labels. Functions of the run-time library take their arguments on the stack.
-/

namespace Garnet

open Reg

/-! ### Variables -/

namespace Emit

/-- Load the value of a name. A variable is cached if a register is free. -/
def loadName (name : String) (span : Span) : Emit Unit := do
  if name == "self" then write (.movl esi eax)
  else if VarName.isPseudo name then write (.movl (.addr ("__" ++ name)) eax)
  else
    let o ← home name (some span)
    match (← get).registers.cached? name with
    | some r => write (.movl r eax)
    | none =>
      match ← withCache (·.cache name) with
      | some r => writeAll [.movl o r, .movl r eax]
      | none => write (.movl o eax)

def storeName (name : String) (span : Span) : Emit Unit := do
  if VarName.isPseudo name then fail (.notAssignable name) span
  let o ← home name (some span)
  match ← withCache (·.cache name) with
  | some r =>
    write (.movl eax r)
    withCache fun c => ((), c.markDirty name)
  | none => write (.movl eax o)

/-- The distance of the word that an index names. -/
def indexDisp (n : Node) : Emit Int :=
  match n.child 1 with
  | .int k => return Numeral.wrap32 (4 * Numeral.wrap32 k)
  | _ => fail (.malformed "index node") n.span

/-- Load a path of heap frames into a register. No other register changes. -/
def loadFrame (reg : Reg) (around : Span) : Tree → Emit Unit
  | .name name => do
    let src ← match (← get).registers.cached? name with
      | some r => pure (Operand.reg r)
      | none => home name (some around)
    write (.movl src reg)
  | .node .index span id (base :: rest) => do
    let disp ← indexDisp ⟨.index, span, id, base :: rest⟩
    loadFrame reg span base
    write (.movl (.mem reg disp) reg)
  | .node .index span id [] => do
    let _ ← indexDisp ⟨.index, span, id, []⟩
  | _ => fail .frameExpression around

/-- Load a word of `self` or of a heap frame. -/
def loadIndex (n : Node) : Emit Unit := do
  let disp ← indexDisp n
  if n.child 0 matches .name "self" then write (.movl (.mem esi disp) eax)
  else
    loadFrame eax n.span (n.child 0)
    write (.movl (.mem eax disp) eax)

/-- Store the value in a word of `self` or of a heap frame. -/
def storeIndex (n : Node) : Emit Unit := do
  let disp ← indexDisp n
  if n.child 0 matches .name "self" then write (.movl eax (.mem esi disp))
  else
    withRegister fun r => do
      loadFrame r n.span (n.child 0)
      write (.movl eax (.mem r disp))

def constLabel (n : Node) : Emit String :=
  match n.child 0 with
  | .name label => return label
  | _ => fail (.malformed "constant node") n.span

def loadConst (n : Node) : Emit Unit := do
  let label ← constLabel n
  write (.movl (if n.child 1 matches .name "class" then .addr label else .abs label) eax)

def store (target : Tree) (span : Span) : Emit Unit :=
  match target with
  | .name name => storeName name span
  | .node .index s id children => storeIndex ⟨.index, s, id, children⟩
  | .node .const s id children => do
    let n : Node := ⟨.const, s, id, children⟩
    let label ← constLabel n
    if n.child 1 matches .name "class" then fail (.reassignedClass label) s
    write (.movl eax (.abs label))
  | _ => fail .assignmentTarget span

end Emit

/-- How a call reaches its callee. -/
inductive CallTarget where
  /-- Through the place of a method name. -/
  | send (name : String)
  /-- By a label. -/
  | direct (label : String)

/-- The operands of a call, none of which later code changes. -/
structure CallArgs where
  receiver : Operand
  block : Operand := .nil
  args : List Operand := []
  /-- An array that holds the arguments. -/
  splat : Option Operand := none
  /-- The place that `break` out of the block goes to. -/
  breakId : Option Int := none

/-- Whether an operand can be stored without a register between. -/
def Operand.isDirect : Operand → Bool
  | .reg _ | .imm _ | .addr _ => true
  | _ => false

/-- The word of a fixnum, as a number with a sign. -/
def fixnumWord? (i : Integer) : Option Int := i.tagged?.map fun w => Numeral.wrap32 w.toNat

def immediate? : Tree → Option Operand
  | .int n => (fixnumWord? (.ofInt n)).map .imm
  | .name name =>
    if name == "self" then some esi
    else if VarName.isPseudo name then some (.addr ("__" ++ name))
    else none
  | .node .const span id children =>
    let n : Node := ⟨.const, span, id, children⟩
    if n.child 1 matches .name "class" then (n.name? 0).map .addr else none
  | _ => none

namespace Emit

/-- The name at place `i` of a node. -/
def nameAt (n : Node) (i : Nat) : Emit String :=
  match n.name? i with
  | some s => return s
  | none => fail (.malformed (n.tag.text ++ " node")) n.span

/-! ### Functions of the run-time library -/

/-- Lines that pass an operand in the argument area. -/
def passOperand (o : Operand) (disp : Int) : List Line :=
  if o.isDirect then [.movl o (.mem esp disp)] else [.movl o eax, .movl eax (.mem esp disp)]

/-- Call a function of the run-time library. In a protected region it may raise an exception, and the
handler expects all variables at home. -/
def callRuntime (x : Exits) (name : String) (args : List Operand) : Emit Unit := do
  let evict := if x.isGuarded then Cache.evictAll else Cache.evictCallerSaved
  storeAll (← withCache evict)
  let size := max (align16 (4 * args.length)) 16
  let placed := args.mapIdx fun i o => (o, (4 * i : Int))
  let (direct, others) := placed.partition fun (o, _) => o.isDirect
  write (.subl (.imm size) esp)
  writeAll ((direct ++ others).flatMap fun (o, disp) => passOperand o disp)
  writeRuntimeCall name x.isGuarded
  write (.addl (.imm size) esp)

/-! ### Literals -/

def literal (add : Literals → Nat × Literals) : Emit Nat :=
  modifyGet fun s =>
    let (k, literals) := add s.shared.literals
    (k, { s with shared := { s.shared with literals } })

def loadInteger (i : Integer) : Emit Unit := do
  match fixnumWord? i with
  | some w => write (.movl (.imm w) eax)
  | none =>
    let k ← literal (·.integer i.toHeap)
    write (.movl (.addr (".Lint" ++ Numeral.decimal k)) eax)

def makeString (x : Exits) (bytes : Bytes) : Emit Unit := do
  let k ← literal (·.string bytes)
  callRuntime x "__get_string" [.addr (".Lstr" ++ Numeral.decimal k)]

/-- Load a symbol, which is made once and kept in a static word. -/
def loadSymbol (x : Exits) (name : String) : Emit Unit := do
  let k ← literal (·.symbol name)
  let cache := Operand.abs (".Lsymc_" ++ Numeral.decimal k)
  let done ← newLabel "sym"
  branchPoint
  writeAll [.movl cache eax, .testl eax eax, .jumpIf "jnz" done]
  callRuntime x "__get_symbol" [.addr (".Lsym_" ++ Numeral.decimal k)]
  writeAll [.movl eax cache, .label done]

/-! ### Calls of compiled code -/

/-- Load the class of the value at the top of the stack. -/
def loadClassOfTop : Emit Unit := do
  let heap ← newLabel "obj"
  let done ← newLabel "cls"
  writeAll [.movl (.mem esp 0) eax, .testl (.imm 1) eax, .jumpIf "jz" heap,
    .movl (.addr "Integer") eax, .jmp done, .label heap, .movl (.mem eax 0) eax, .label done]

/-- Load the class of the receiver, which stands at the top of the stack. -/
def loadReceiverClass (receiver : Operand) : Emit Unit :=
  match receiver with
  | .imm n => if n % 2 = 1 then write (.movl (.addr "Integer") eax) else loadClassOfTop
  | .addr object => write (.movl (.abs object) eax)
  | _ => loadClassOfTop

/-- Keep the stack pointer for a `break` out of the block of a call; gives the label it resumes at. -/
def breakSite (id : Int) : Emit String := do
  let s ← get
  if s.shared.breakSites.contains id then fail (.breakTargetTwice id) s.frame.span
  modify fun s => { s with shared := { s.shared with breakSites := id :: s.shared.breakSites } }
  let disp := slotDisp (← takeSlots 1)
  let text := Numeral.decimal id
  writeAll [.directive (".equ\t__brk_sp_" ++ text ++ ", " ++ Numeral.decimal disp),
    .movl esp (.mem ebp disp)]
  return ".Lbrk_" ++ text

def invokePlain (target : CallTarget) (call : CallArgs) : Emit Unit := do
  let operands := call.receiver :: call.block :: call.args
  let size := align16 (4 * operands.length)
  write (.subl (.imm size) esp)
  writeAll (operands.mapIdx fun i o => passOperand o (4 * i : Int)).flatten
  write (.movl (.imm operands.length) ebx)
  match target with
  | .send name =>
    loadReceiverClass call.receiver
    write (.callIndirect (.symMem (Label.methodOffset name) eax))
  | .direct label => write (.call label)
  write (.addl (.imm size) esp)

def invokeSplat (x : Exits) (target : CallTarget) (call : CallArgs) (array : Operand) : Emit Unit :=
  match target with
  | .send name =>
    callRuntime x "__splat_call"
      [call.receiver, call.block, .addr (Label.methodOffset name), array]
  | .direct label =>
    callRuntime x "__splat_super" [.addr label, call.receiver, call.block, array]

/-- Call compiled code. All variables are at home, and `self` is loaded again afterwards. -/
def invoke (x : Exits) (target : CallTarget) (call : CallArgs) : Emit Unit := do
  branchPoint
  let resume ← match call.breakId with
    | some id => some <$> breakSite id
    | none => pure none
  match call.splat with
  | some array => invokeSplat x target call array
  | none => invokePlain target call
  if let some label := resume then write (.label label)
  write (.movl (.mem ebp 8) esi)

section

variable (rec : Exits → Tree → Emit Unit) (x : Exits)

/-- The value of a tree as an operand that later code does not change. -/
def operand (e : Tree) : Emit Operand := do
  match immediate? e with
  | some o => return o
  | none =>
    rec x e
    stash

def makeProc (n : Node) : Emit Unit := do
  let label ← nameAt n 0
  rec x (n.child 1)
  callRuntime x "__new_proc" [.addr label, eax, esi, ebp]

def plainArgument (e : Tree) : Emit Operand := do
  if e.is .splat then fail .splatNotAlone (e.spanOr .zero)
  operand rec x e

/-- Compute arguments from left to right, and then the block. -/
def callArgs (receiver : Operand) (args block : Tree) : Emit CallArgs := do
  let call : CallArgs ← match args.children with
    | [.node .splat s id children] => do
      rec x ((Node.mk .splat s id children).child 0)
      pure { receiver, splat := some (← stash) }
    | items => do pure { receiver, args := ← items.mapM (plainArgument rec x) }
  match block with
  | .absent => return call
  | .node .procNew s id children =>
    let n : Node := ⟨.procNew, s, id, children⟩
    makeProc rec x n
    let breakId := match n.child 2 with
      | .int id => if 0 ≤ id then some id else none
      | _ => none
    return { call with block := ← stash, breakId }
  | other => return { call with block := ← operand rec x other }

/-- Call with a receiver, and free the slots from `mark` on. -/
def callOn (receiver : Operand) (target : CallTarget) (args block : Tree) (mark : Nat) :
    Emit Unit := do
  let call ← callArgs rec x receiver args block
  invoke x target call
  release mark

/-- A call on `self`. -/
def callSelf (n : Node) : Emit Unit := do
  let name ← nameAt n 0
  callOn rec x esi (.send name) (n.child 1) (n.child 2) (← mark)

def callSend (n : Node) : Emit Unit := do
  let name ← nameAt n 1
  let mark ← mark
  let receiver ← operand rec x (n.child 0)
  callOn rec x receiver (.send name) (n.child 2) (n.child 3) mark

/-- A call of the method that a method of this class hides. -/
def callSuper (n : Node) : Emit Unit := do
  let label ← nameAt n 0
  callOn rec x esi (.direct label) (n.child 1) (n.child 2) (← mark)

/-- Go to a label if the value is `nil`. -/
def exitIfNil (label : String) : Emit Unit := do
  branchPoint
  writeAll [.cmpl .nil eax, .jumpIf "je" label]

/-- A safe call: if the receiver is `nil` so is the value, and the arguments are not computed. -/
def callSafe (n : Node) : Emit Unit := do
  let name ← nameAt n 1
  let done ← newLabel "safe"
  let mark ← mark
  rec x (n.child 0)
  exitIfNil done
  let receiver ← stash
  let call ← callArgs rec x receiver (n.child 2) (n.child 3)
  invoke x (.send name) call
  bindLabel done
  release mark

/-- The calls of a chain, each on the value of the one before. A safe call leaves the chain if its
receiver is `nil`. -/
def chain (exit : String) : Tree → Emit Unit
  | .node .send s id (receiver :: rest) => do
    let n : Node := ⟨.send, s, id, receiver :: rest⟩
    let name ← nameAt n 1
    let mark ← mark
    chain exit receiver
    callOn rec x (← stash) (.send name) (n.child 2) (n.child 3) mark
  | .node .safeSend s id (receiver :: rest) => do
    let n : Node := ⟨.safeSend, s, id, receiver :: rest⟩
    let name ← nameAt n 1
    let mark ← mark
    chain exit receiver
    exitIfNil exit
    callOn rec x (← stash) (.send name) (n.child 2) (n.child 3) mark
  | .node .send s id [] => do
    let _ ← nameAt ⟨.send, s, id, []⟩ 1
  | .node .safeSend s id [] => do
    let _ ← nameAt ⟨.safeSend, s, id, []⟩ 1
  | e => rec x e

/-- A chain of calls with safe ones among them. In an operator assignment, the first statement puts
the receiver into a variable. -/
def safeChain (n : Node) : Emit Unit := do
  let exit ← newLabel "safe"
  match n.child 0 with
  | .node .seq _ _ (.node .assign s id children :: rest) =>
    let set : Node := ⟨.assign, s, id, children⟩
    chain rec x exit (set.child 1)
    store (set.child 0) s
    rest.forM (rec x)
  | .node .seq _ _ (stmt :: rest) => (stmt :: rest).forM (rec x)
  | e => chain rec x exit e
  bindLabel exit

/-! ### Collections -/

def makeArray (n : Node) : Emit Unit := do
  let mark ← mark
  let items ← n.children.mapM (operand rec x)
  callRuntime x "__new_array" (.imm n.children.length :: items)
  release mark

def hashEntry (around : Span) (pair : Tree) : Emit (List Operand) := do
  match pair.children with
  | [k, v] =>
    let k ← operand rec x k
    let v ← operand rec x v
    return [k, v]
  | _ => fail (.malformed "hash entry") around

def makeHash (n : Node) : Emit Unit := do
  let mark ← mark
  let entries ← n.children.mapM (hashEntry rec x n.span)
  callRuntime x "__new_hash" (.imm n.children.length :: entries.flatten)
  release mark

end

end Emit

end Garnet
