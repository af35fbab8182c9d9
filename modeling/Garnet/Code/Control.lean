import Garnet.Code.Call

/-!
# Control flow

Conditions, loops, the ways out of them, exceptions and definitions. On every way out of a protected
region its handler is unlinked and its `ensure` code runs.
-/

namespace Garnet

open Reg

namespace Emit

/-! ### Handlers -/

/-- Link a handler record: the record before it, the frame, the stack pointer and the handler. -/
def installHandler (record : Int) (handler : String) : List Line :=
  let word (k : Int) : Operand := .mem ebp (record + 4 * k)
  [.movl (.abs "__handler_top") eax, .movl eax (word 0), .movl ebp (word 1), .movl esp (word 2),
    .movl (.addr handler) (word 3), .leal (word 0) eax, .movl eax (.abs "__handler_top")]

def unlinkHandler (record : Int) : Emit Unit :=
  withRegister fun r => writeAll [.movl (.mem ebp record) r, .movl r (.abs "__handler_top")]

section

variable (rec : Exits → Tree → Emit Unit) (x : Exits)

/-! ### Conditions -/

def conditional (n : Node) : Emit Unit := do
  let otherwise ← newLabel "else"
  let done ← newLabel "endif"
  rec x (n.child 0)
  branchIfFalse otherwise
  rec x (n.child 1)
  jump done
  bindLabel otherwise
  rec x (n.child 2)
  bindLabel done

/-- `and` or `or`: the value is that of the operand that decides. -/
def logical (n : Node) : Emit Unit := do
  let done ← newLabel "logic"
  rec x (n.child 0)
  if n.tag == .and then branchIfFalse done else branchIfTrue done
  rec x (n.child 1)
  bindLabel done

def negation (n : Node) : Emit Unit := do
  let falsy ← newLabel "falsy"
  let done ← newLabel "not"
  rec x (n.child 0)
  branchIfFalse falsy
  writeAll [.movl (.bool false) eax, .jmp done, .label falsy, .movl (.bool true) eax, .label done]

/-! ### Loops -/

def loop (n : Node) : Emit Unit := do
  let top ← newLabel "while"
  let finished ← newLabel "wend"
  let exit ← newLabel "wbrk"
  bindLabel top
  rec x (n.child 0)
  branchIfFalse finished
  rec (x.inLoop top exit) (n.child 1)
  jump top
  bindLabel finished
  write (.movl .nil eax)
  bindLabel exit

def doLoop (n : Node) : Emit Unit := do
  let top ← newLabel "do"
  let test ← newLabel "dotest"
  let finished ← newLabel "doend"
  let exit ← newLabel "dobrk"
  bindLabel top
  rec (x.inLoop test exit) (n.child 1)
  bindLabel test
  rec x (n.child 0)
  branchIfFalse finished
  jump top
  bindLabel finished
  write (.movl .nil eax)
  bindLabel exit

/-! ### Ways out -/

/-- Leave the given regions, the innermost ones, down to a depth. The code of a region runs in the
regions around it. -/
def leaveEach (depth : Nat) : List Region → Emit Unit
  | [] => return
  | r :: outer => do
    if depth ≤ outer.length then
      if let some record := r.handler then unlinkHandler record
      if !r.ensure.isAbsent then rec { x with regions := outer } r.ensure
      leaveEach depth outer

/-- Leave the regions down to a depth. The value stays. -/
def leaveRegions (depth : Nat) : Emit Unit := do
  if depth < x.regions.length then
    let mark ← mark
    let value ← stash
    leaveEach rec x depth x.regions
    write (.movl value eax)
    release mark

/-- Go back to the stack frame that a heap frame belongs to, and drop the handlers between. The value
stays. -/
def unwind (frame : Tree) (span : Span) : Emit Unit := do
  leaveRegions rec x 0
  let mark ← mark
  let value ← stash
  loadFrame eax span frame
  write (.movl (.mem eax 4) eax)
  let target ← stash
  callRuntime x "__unwind_to" [target]
  branchPoint
  writeAll [.movl value eax, .movl target ebp]
  release mark

/-- Leave the routine, or the method that a block belongs to. -/
def returnValue (n : Node) : Emit Unit := do
  rec x (n.child 0)
  if (n.child 1).isAbsent then leaveRegions rec x 0 else unwind rec x (n.child 1) n.span
  epilogue

/-- Leave a loop, or the call that a block was passed to. -/
def breakOut (n : Node) : Emit Unit := do
  rec x (n.child 0)
  if (n.child 1).isAbsent then
    match x.loops with
    | target :: _ =>
      leaveRegions rec x target.depth
      jump target.exit
    | [] => fail .breakOutside n.span
  else
    match n.child 2 with
    | .int id =>
      let text := Numeral.decimal id
      unwind rec x (n.child 1) n.span
      writeAll [.movl (.symMem ("__brk_sp_" ++ text) ebp) esp, .jmp (".Lbrk_" ++ text)]
      unreachable
    | _ => fail (.malformed "break node") n.span

def nextRound (n : Node) : Emit Unit := do
  match x.loops with
  | target :: _ =>
    rec x (n.child 0)
    leaveRegions rec x target.depth
    jump target.next
  | [] => fail .nextOutside n.span

/-- Where `retry` goes, and the depth of the region that says so. -/
def retryTarget : List Region → Option (Nat × String)
  | [] => none
  | r :: outer =>
    match r.retry with
    | some label => some (outer.length, label)
    | none => retryTarget outer

/-- Run the body of a rescue clause's region again. -/
def retry (n : Node) : Emit Unit := do
  match retryTarget x.regions with
  | some (depth, label) =>
    leaveRegions rec x (depth + 1)
    jump label
  | none => fail .retryOutside n.span

/-! ### Exceptions -/

/-- Run `ensure` code. The value stays. -/
def runEnsure (ensure : Tree) : Emit Unit := do
  if !ensure.isAbsent then
    let mark ← mark
    let value ← stash
    rec x ensure
    write (.movl value eax)
    release mark

def rescueClause (ensure : Tree) (retry done : String) (around : Span) (clause : Tree) :
    Emit Unit := do
  match clause with
  | .node .rescue s id children =>
    let n : Node := ⟨.rescue, s, id, children⟩
    let next ← newLabel "nextrescue"
    rec x (n.child 0)
    branchIfFalse next
    rec (x.inRegion { ensure, retry := some retry }) (n.child 1)
    runEnsure rec x ensure
    jump done
    bindLabel next
  | _ => fail (.malformed "rescue clause") around

def rescueBody (n : Node) (clauses : List Tree) (otherwise ensure : Tree) : Emit Unit := do
  let retry ← newLabel "retry"
  let rescue ← newLabel "rescue"
  let done ← newLabel "endbegin"
  let record ← takeRecord
  bindLabel retry
  writeAll (installHandler record rescue)
  rec (x.inRegion { ensure, handler := some record }) (n.child 0)
  unlinkHandler record
  if !otherwise.isAbsent then rec (x.inRegion { ensure }) otherwise
  runEnsure rec x ensure
  jump done
  bindLabel rescue
  write (.movl (.mem ebp 8) esi)
  store (n.child 1) n.span
  clauses.forM (rescueClause rec x ensure retry done n.span)
  runEnsure rec x ensure
  let mark ← mark
  rec x (n.child 1)
  let exception ← stash
  callRuntime x "__reraise" [exception]
  release mark
  unreachable
  bindLabel done

/-- A protected body: the body, the variable of the exception, the clauses, what runs without an
exception, and what runs in any case. -/
def protect (n : Node) : Emit Unit := do
  let count := n.children.length
  if count < 4 then rec x (n.child 0)
  else
    let clauses := (n.children.drop 2).take (count - 4)
    let otherwise := n.child (count - 2)
    let ensure := n.child (count - 1)
    if clauses.isEmpty then
      rec (x.inRegion { ensure }) (n.child 0)
      rec (x.inRegion { ensure }) otherwise
      runEnsure rec x ensure
    else rescueBody rec x n clauses otherwise ensure

/-! ### Definitions -/

/-- A method definition. A method that stands in its table from the start needs no code. -/
def defineMethod (n : Node) : Emit Unit := do
  let name ← nameAt n 0
  let label ← nameAt n 1
  match n.child 2 with
  | .name "static" => pure ()
  | .name "self" => write (.movl (.addr label) (.symMem (Label.methodOffset name) esi))
  | _ => fail (.malformed "method definition") n.span
  loadSymbol x name

def defineSingleton (n : Node) : Emit Unit := do
  let name ← nameAt n 1
  let label ← nameAt n 2
  rec x (n.child 0)
  callRuntime x "__new_eigenclass" [eax]
  write (.movl (.addr label) (.symMem (Label.methodOffset name) eax))
  loadSymbol x name

def classBody (n : Node) : Emit Unit := do
  let label ← nameAt n 0
  let body ← nameAt n 1
  match n.child 2 with
  | .int site =>
    let once := Operand.abs ("__once_" ++ Numeral.decimal site)
    let done ← newLabel "defined"
    branchPoint
    writeAll [.cmpl (.imm 0) once, .jumpIf "jne" done, .movl (.imm 1) once]
    invoke x (.direct body) { receiver := .addr label }
    bindLabel done
    write (.movl (.addr label) eax)
  | _ => fail (.malformed "class node") n.span

def singletonBody (n : Node) : Emit Unit := do
  let body ← nameAt n 1
  let mark ← mark
  rec x (n.child 0)
  callRuntime x "__new_eigenclass" [eax]
  let receiver ← stash
  invoke x (.direct body) { receiver }
  release mark

end

end Emit

end Garnet
