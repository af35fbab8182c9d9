import Garnet.Closure.Analysis

/-!
# Lifting routines

A second walk over a unit, in step with the first one, makes a routine of each scope. A captured
variable becomes a word of the heap frame of its owner:

* word 0: the heap frame that the scope's creator handed to it
* word 1: the stack frame, for `return` and `break` out of blocks
* word 2 and above: the captured variables, in order

In the routine that owns the frame it is `__env__`; a block gets the frame of its creator as
`__penv__`, and goes on from frame to frame by their words 0.
-/

namespace Garnet

namespace Closure

def ownEnv : String := "__env__"

def parentEnv : String := "__penv__"

/-- The state of the walk. -/
structure Lifting where
  /-- The identity of the next node. -/
  nextId : Nat
  /-- The next scope in the order of the first walk. -/
  nextScope : Nat := 1
  /-- The routines, with their scopes. -/
  routines : List (Nat × Routine) := []

abbrev Lift := EStateM CompileError Lifting

instance {ε : Type} : Fresh (EStateM ε Lifting) where
  fresh := modifyGet fun s => (s.nextId, { s with nextId := s.nextId + 1 })

def takeScope : Lift Nat := modifyGet fun s => (s.nextScope, { s with nextScope := s.nextScope + 1 })

def index (frame : Tree) (slot : Nat) (span : Span) : Lift Tree := Build.node .index span [frame, .int slot]

section

variable (ss : Scopes)

/-- The path from the frame of scope `here`, if there is one, outwards to the frame of scope `goal`;
`none` if it does not pass there. -/
def climb (goal : Nat) (span : Span) (path : Tree) (here : Option Nat) : Lift (Option Tree) := do
  match here with
  | none => return none
  | some i =>
    if i = goal then return some path
    else
      let path ← index path 0 span
      match (ss.get i).outer?.bind ss.frameOwner? with
      | some j => if j < i then climb goal span path (some j) else return none
      | none => return none
termination_by here.elim 0 (· + 1)

/-- The path from scope `i` to the heap frame of scope `goal`. -/
def framePath (i goal : Nat) (span : Span) : Lift Tree := do
  let s := ss.get i
  let (path, start) := if s.frame then (Tree.name ownEnv, some i) else (.name parentEnv, ss.parentFrame? i)
  match ← climb ss goal span path start with
  | some path => return path
  | none => throw (.transform (.noEnvironmentPath s.label (ss.get goal).label) span)

/-- The environment that scope `i` hands to the blocks it creates. -/
def handedEnv (i : Nat) : Tree :=
  let s := ss.get i
  if s.frame then .name ownEnv else if s.kind = .block then .name parentEnv else .nil

/-- A local variable: a word of a heap frame if it is captured, and else its name. -/
def localVariable (i : Nat) (name : String) (span : Span) : Lift Tree := do
  let owner := ss.ownerOf i name
  match (ss.get owner).captured.idxOf? name with
  | some k =>
    let frame ← framePath ss i owner span
    index frame (k + 2) span
  | none => return .name name

def routine (i : Nat) (body : Tree) : Routine :=
  let s := ss.get i
  { label := s.label
    kind := s.kind
    blockParam := s.blockParam
    params := s.params
    rest := s.rest
    locals := s.declared.filter fun v => !s.captured.contains v
    env := if s.frame then some s.captured else none
    body
    span := s.span }

/-- Where the walk is, and the construct that holds the tree at hand. -/
abbrev Site := Place × Span

variable (rec : Site → Tree → Lift Tree)

/-- Make a routine of scope `i`. -/
def liftScope (i : Nat) (body : Tree) : Lift Unit := do
  let body ← rec (⟨i, 0⟩, .zero) body
  modify fun s => { s with routines := (i, routine ss i body) :: s.routines }

/-- A block: its routine, the environment it gets, and the place that `break` goes to. -/
def liftBlock (place : Place) (n : Node) : Lift Tree := do
  let i ← takeScope
  liftScope ss rec i (n.child 1)
  let s := ss.get i
  Build.node .procNew n.span
    [.name s.label, handedEnv ss place.scope, .int (s.breakId.elim (-1) Int.ofNat)]

/-- The children of a call; the one at place `skip` is a name. -/
def liftCall (place : Place) (span : Span) (skip : Nat) : Nat → List Tree → Lift (List Tree)
  | _, [] => return []
  | i, e :: es => do
    let e ←
      if i = skip then pure e
      else
        match e.node? with
        | some n =>
          if es.isEmpty && n.tag == .lambda then liftBlock ss rec place n
          else rec (place, span) e
        | none => rec (place, span) e
    return e :: (← liftCall place span skip (i + 1) es)

/-- A return. Out of a block that is not strict it goes to the frame of the method. -/
def liftReturn (place : Place) (n : Node) : Lift Tree := do
  let value ← rec (place, n.span) (n.child 0)
  let s := ss.get place.scope
  if s.kind = .block && !s.strict then
    let frame ← framePath ss place.scope (ss.methodOf place.scope) n.span
    return n.rebuild [value, frame]
  else return n.rebuild [value]

/-- A break. In a loop it leaves the loop; out of a block that is not strict it goes to where the
block was created, and out of a strict one it returns. -/
def liftBreak (place : Place) (n : Node) : Lift Tree := do
  let value ← rec (place, n.span) (n.child 0)
  let s := ss.get place.scope
  if place.loops > 0 || s.kind != .block then return n.rebuild [value]
  else if s.strict then Build.node .ret n.span [value]
  else
    match s.parent, s.breakId with
    | some p, some id =>
      let frame ← framePath ss place.scope p n.span
      return n.rebuild [value, frame, .int id]
    | _, _ => throw (.transform .noBreakTarget n.span)

def liftStep (site : Site) (e : Tree) : Lift Tree := do
  let (place, around) := site
  match e with
  | .name name =>
    if VarName.isLocal name then localVariable ss place.scope name around else return e
  | .node tag span id children =>
    let n : Node := ⟨tag, span, id, children⟩
    let here := rec (place, span)
    match tag with
    | .loop | .doLoop =>
      let test ← here (n.child 0)
      let body ← rec ({ place with loops := place.loops + 1 }, span) (n.child 1)
      return n.rebuild [test, body]
    | .lambda => liftBlock ss rec place n
    | .call | .super => return n.rebuild (← liftCall ss rec place span 0 0 children)
    | .send | .safeSend => return n.rebuild (← liftCall ss rec place span 1 0 children)
    | .method =>
      liftScope ss rec (← takeScope) (n.child 4)
      Build.node .method span (children.take 3)
    | .singletonMethod =>
      let receiver ← here (n.child 0)
      liftScope ss rec (← takeScope) (n.child 4)
      Build.node .singletonMethod span [receiver, n.child 1, n.child 2]
    | .classBody =>
      let i ← takeScope
      liftScope ss rec i (n.child 2)
      Build.node .classBody span [n.child 0, .name (ss.get i).label, n.child 1]
    | .singletonClass =>
      let object ← here (n.child 0)
      let i ← takeScope
      liftScope ss rec i (n.child 1)
      Build.node .singletonClass span [object, .name (ss.get i).label]
    | .const => return e
    | .ret => liftReturn ss rec place n
    | .leave => liftBreak ss rec place n
    | .proceed =>
      let value ← here (n.child 0)
      if place.loops = 0 && (ss.get place.scope).kind = .block then Build.node .ret span [value]
      else return n.rebuild [value]
    | _ => n.mapChildren here
  | e => return e

end

end Closure

/-- The routines of a unit in the order of their scopes. `unit` is the label of its top level, and the
next node gets the identity `nextId`. -/
def liftRoutines (unit : String) (e : Tree) (nextId : Nat) : Except CompileError (List Routine) :=
  let ss := Closure.analyse unit e
  match Closure.liftScope ss (Tree.recurse (Closure.liftStep ss)) 0 e { nextId } with
  | .ok _ s => .ok ((s.routines.mergeSort fun a b => a.1 ≤ b.1).map Prod.snd)
  | .error err _ => .error err

end Garnet
