import Garnet.Program.Basic

/-!
# Finding scopes and captured variables

One walk over a unit opens its scopes in order and notes which variables each assigns and mentions.
Then each variable gets its owner, and a variable that is mentioned in another scope than its owner
is captured.
-/

namespace Garnet

/-! ### Scopes

A variable belongs to the outermost scope among a block and the scopes around it that mentions it. One that a
block mentions and does not own is captured: it lives in a heap frame of its owner. A scope's parent has a smaller
number, so each search outwards ends. -/

namespace Closure

/-- A scope of local variables. -/
structure Scope where
  kind : RoutineKind
  label : String
  /-- The scope that creates a block. -/
  parent : Option Nat
  /-- `return` and `break` leave only the block. -/
  strict : Bool
  blockParam : String
  params : List String
  rest : Option String
  assigned : List String := []
  mentioned : List String := []
  declared : List String := []
  captured : List String := []
  /-- Whether the scope has a heap frame. -/
  frame : Bool := false
  /-- The number of the place that `break` goes to. -/
  breakId : Option Nat := none
  span : Span
deriving Inhabited

def addNew (names : List String) (name : String) : List String :=
  if names.contains name then names else names ++ [name]

def Scope.isParam (s : Scope) (name : String) : Bool :=
  s.blockParam == name || s.rest == some name || s.params.contains name

def Scope.owns (s : Scope) (name : String) : Bool := s.isParam name || s.declared.contains name

def Scope.outer? (s : Scope) : Option Nat := if s.kind = .block then s.parent else none

/-- The scopes of a unit, each behind its parent. -/
abbrev Scopes := Array Scope

namespace Scopes

def get (ss : Scopes) (i : Nat) : Scope := ss[i]?.getD default

/-- The first answer that a scope or one outwards of it gives. -/
def searchOut {α : Type} (ss : Scopes) (f : Nat → Scope → Option α) (i : Nat) : Option α :=
  match f i (ss.get i) with
  | some a => some a
  | none =>
    match (ss.get i).outer? with
    | some p => if p < i then ss.searchOut f p else none
    | none => none
termination_by i

/-- The unit, method or class body around a scope. -/
def methodOf (ss : Scopes) (i : Nat) : Nat :=
  (ss.searchOut (fun j s => if s.outer?.isNone then some j else none) i).getD i

/-- The scope that owns a variable mentioned in scope `i`. -/
def owner? (ss : Scopes) (i : Nat) (name : String) : Option Nat :=
  ss.searchOut (fun j s => if s.owns name then some j else none) i

/-- The scope that owns a variable; one that nobody owns belongs where it is mentioned. -/
def ownerOf (ss : Scopes) (i : Nat) (name : String) : Nat := (ss.owner? i name).getD i

/-- The scope whose heap frame scope `i` sees: its own, or the nearest one outwards. -/
def frameOwner? (ss : Scopes) (i : Nat) : Option Nat :=
  ss.searchOut (fun j s => if s.frame then some j else none) i

/-- The scope whose heap frame a block created in scope `i`'s parent gets. -/
def parentFrame? (ss : Scopes) (i : Nat) : Option Nat := (ss.get i).parent.bind ss.frameOwner?

end Scopes

end Closure

namespace Closure

/-- What the walk has found. -/
structure Found where
  scopes : Scopes := #[]
  /-- The numbers given to places that `break` goes to. -/
  breaks : Nat := 0

abbrev Walk := StateM Found

/-- Where the walk is: the scope, and the loops around the place within it. -/
structure Place where
  scope : Nat
  loops : Nat := 0

def modifyScope (i : Nat) (f : Scope → Scope) : Walk Unit :=
  modify fun s => { s with scopes := s.scopes.modify i f }

/-- The parameters that arguments are passed to in order. -/
def plainParams (params : Tree) : List String := params.children.filterMap Tree.name?

/-- The parameter for the arguments that are left over. -/
def restParam? (params : Tree) : Option String :=
  ((params.children.filter (·.is .rest)).getLast?).map fun p =>
    (p.children.head?.bind Tree.name?).getD "__rest"

def openScope (kind : RoutineKind) (label : String) (parent : Option Nat) (params : Tree)
    (strict : Bool) (span : Span) : Walk Nat := do
  let i := (← get).scopes.size
  let implicit := if kind = .block then Yield.lambdaBlock else Yield.methodBlock
  let scope : Scope :=
    { kind, label, parent, strict, span
      blockParam := (Yield.blockParam? params).getD implicit
      params := plainParams params
      rest := restParam? params }
  modify fun s => { s with scopes := s.scopes.push scope }
  return i

def classBodyLabel (cls site : Tree) : String :=
  let number : Int := match site with
    | .int n => n
    | _ => 0
  "__classbody_" ++ cls.name?.getD "" ++ "_" ++ Numeral.decimal number

def noteAssigned (i : Nat) (name : String) : Walk Unit :=
  modifyScope i fun s => { s with assigned := addNew s.assigned name }

/-- A return from a block that is not strict needs the frame of the method. -/
def noteReturn (i : Nat) : Walk Unit := do
  let ss := (← get).scopes
  let s := ss.get i
  if s.kind = .block && !s.strict then
    modifyScope (ss.methodOf i) fun s => { s with frame := true }

/-- A break from a block that is not strict needs a place to go to, and the frame of the scope that
created the block. -/
def noteBreak (place : Place) : Walk Unit := do
  let s := (← get).scopes.get place.scope
  if place.loops = 0 && s.kind = .block && !s.strict then
    if s.breakId.isNone then
      let id := (← get).breaks
      modify fun f => { f with breaks := id + 1 }
      modifyScope place.scope fun s => { s with breakId := some id }
    if let some p := s.parent then modifyScope p fun s => { s with frame := true }

/-- A call whose last child, a block, is not strict unless it is the block of `lambda`. -/
def strictBlock (n : Node) : Bool := n.tag == .call && n.name? 0 == some "lambda"

section

variable (unit : String) (rec : Place → Tree → Walk Unit)

def walkBlock (place : Place) (block : Tree) (strict : Bool) : Walk Unit := do
  match block.node? with
  | none => return
  | some n =>
    let label := unit ++ "_block_" ++ Numeral.decimal (← get).scopes.size
    let i ← openScope .block label (some place.scope) (n.child 0) strict n.span
    rec ⟨i, 0⟩ (n.child 1)

/-- Walk over the children of a call; the one at place `skip` is a name. -/
def walkCall (place : Place) (n : Node) (skip : Nat) : Nat → List Tree → Walk Unit
  | _, [] => return
  | i, e :: es => do
    if i != skip then
      if es.isEmpty && e.is .lambda then walkBlock unit rec place e (strictBlock n)
      else rec place e
    walkCall place n skip (i + 1) es

/-- Walk over a method, whose label, parameters and body stand at the places given. -/
def walkMethod (n : Node) (label : Nat) : Walk Unit := do
  let i ← openScope .method ((n.name? label).getD "") none (n.child 3) false n.span
  rec ⟨i, 0⟩ (n.child 4)

def walkClass (n : Node) (label : String) (body : Tree) : Walk Unit := do
  let i ← openScope .classBody label none .absent false n.span
  rec ⟨i, 0⟩ body

def walkStep (place : Place) (e : Tree) : Walk Unit := do
  match e with
  | .name name =>
    if VarName.isLocal name then
      modifyScope place.scope fun s => { s with mentioned := addNew s.mentioned name }
  | .node tag span id children =>
    let n : Node := ⟨tag, span, id, children⟩
    match tag with
    | .assign =>
      if let some name := n.name? 0 then
        if VarName.isLocal name then noteAssigned place.scope name
      children.forM (rec place)
    | .protect =>
      if let some name := n.name? 1 then noteAssigned place.scope name
      children.forM (rec place)
    | .loop | .doLoop =>
      rec place (n.child 0)
      rec { place with loops := place.loops + 1 } (n.child 1)
    | .lambda => walkBlock unit rec place e true
    | .call | .super => walkCall unit rec place n 0 0 children
    | .send | .safeSend => walkCall unit rec place n 1 0 children
    | .method => walkMethod rec n 1
    | .singletonMethod =>
      rec place (n.child 0)
      walkMethod rec n 2
    | .classBody => walkClass rec n (classBodyLabel (n.child 0) (n.child 1)) (n.child 2)
    | .singletonClass =>
      rec place (n.child 0)
      let label := unit ++ "_sclass_" ++ Numeral.decimal (← get).scopes.size
      walkClass rec n label (n.child 1)
    | .const => return
    | .ret =>
      children.forM (rec place)
      noteReturn place.scope
    | .leave =>
      children.forM (rec place)
      noteBreak place
    | _ => children.forM (rec place)
  | _ => return

end

/-- Let scope `i` own the variables that it assigns or mentions and that nobody outwards owns. -/
def declareIn (ss : Scopes) (i : Nat) : Scopes :=
  let s := ss.get i
  (s.assigned ++ s.mentioned).foldl (fun ss name =>
    if (ss.owner? i name).isSome then ss
    else ss.modify i fun s => { s with declared := addNew s.declared name }) ss

/-- Capture the variables that scope `i` mentions and does not own. -/
def captureIn (ss : Scopes) (i : Nat) : Scopes :=
  (ss.get i).mentioned.foldl (fun ss name =>
    let owner := ss.ownerOf i name
    if owner = i then ss
    else ss.modify owner fun s => { s with captured := addNew s.captured name, frame := true }) ss

def analyse (unit : String) (e : Tree) : Scopes :=
  let walk : Walk Unit := do
    let main ← openScope .main unit none .absent false (e.spanOr .zero)
    Tree.recurse (walkStep unit) ⟨main, 0⟩ e
  let ss := (walk.run {}).2.scopes
  let order := List.range ss.size
  order.foldl captureIn (order.foldl declareIn ss)

end Closure

end Garnet
