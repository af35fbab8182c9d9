import Garnet.Code.Arithmetic
import Garnet.Code.Control

/-!
# The code of a routine

The body is written first, since the code before it depends on the number of slots it uses.
-/

namespace Garnet

open Reg

namespace Emit

def nodeStep (rec : Exits → Tree → Emit Unit) (x : Exits) (n : Node) : Emit Unit :=
  match n.tag with
  | .seq => do
    if n.children.isEmpty then write (.movl .nil eax)
    n.children.forM (rec x)
  | .assign => do
    rec x (n.child 1)
    store (n.child 0) n.span
  | .index => loadIndex n
  | .const => loadConst n
  | .numArgs => writeAll [.movl (.mem ebp (-4)) eax, .addl eax eax, .addl (.imm 1) eax]
  | .cond => conditional rec x n
  | .and | .or => logical rec x n
  | .not => negation rec x n
  | .loop => loop rec x n
  | .doLoop => doLoop rec x n
  | .protect => protect rec x n
  | .ret => returnValue rec x n
  | .leave => breakOut rec x n
  | .proceed => nextRound rec x n
  | .retry => retry rec x n
  | .redo => fail .redo n.span
  | .call => callSelf rec x n
  | .send => send rec x n
  | .safeSend => callSafe rec x n
  | .safeChain => safeChain rec x n
  | .super => callSuper rec x n
  | .procNew => makeProc rec x n
  | .array => makeArray rec x n
  | .hash => makeHash rec x n
  | .method => defineMethod x n
  | .singletonMethod => defineSingleton rec x n
  | .classBody => classBody x n
  | .singletonClass => singletonBody rec x n
  | tag => fail (.unsupported tag) n.span

/-- Write the code of a tree; its value is in `%eax`. -/
def step (rec : Exits → Tree → Emit Unit) (x : Exits) (e : Tree) : Emit Unit := do
  let around := (← get).frame.span
  match e with
  | .absent => write (.movl .nil eax)
  | .int n => loadInteger (.ofInt n)
  | .big text =>
    match Integer.parse? text with
    | some i => loadInteger i
    | none => fail (.integerLiteral text) around
  | .float text => fail (.floatLiteral text) around
  | .str bytes => makeString x bytes
  | .sym name => loadSymbol x name
  | .name name => loadName name around
  | .node tag span id children => nodeStep rec x ⟨tag, span, id, children⟩

/-- Write the code of a tree, in the places `x` around it. The code that ways out run is counted with
the tree, so the recursion ends. -/
def expr (x : Exits) (e : Tree) : Emit Unit :=
  recurseOn (fun p : Exits × Tree => p.1.weight + p.2.size)
    (fun rec p => step (fun x e => rec (x, e)) p.1 p.2) (x, e)

/-- Write the code of a routine behind its prologue. -/
def body (r : Routine) : Emit Unit := do
  expr {} r.body
  epilogue

end Emit

/-- The state in which the code of a routine is started. -/
def Emitter.start (r : Routine) (shared : Shared) : Emitter :=
  let frame := Frame.ofRoutine r
  { frame
    shared
    registers := .new (frame.uses r.body)
    nextSlot := frame.named
    maxSlot := frame.named }

def emitRoutine (r : Routine) (shared : Shared) : Except CompileError (List Line × Shared) :=
  match Emit.body r (.start r shared) with
  | .ok _ s => .ok (Prologue.lines r s.frame s.maxSlot ++ s.entries.toList.map Entry.line, s.shared)
  | .error e _ => .error e

end Garnet
