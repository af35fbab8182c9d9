import Garnet.Storage.Collect

/-!
# Resolving names

A second walk over every unit replaces each name by the storage it stands for:

* a class: `const` with its label and `class`
* a constant, a global or a class variable: `const` with the label of its word and `value`
* an instance variable: `index` of `self`, or `const`, or a call that looks it up

A class body is known by its label and a number, a method by its label, and `super` by the label of
the method it calls.
-/

namespace Garnet

namespace Storage

/-- A place: what surrounds a tree, and the construct that holds it. -/
abbrev Place := Context × Span

def word (label : String) (span : Span) : Resolve Tree :=
  Build.node .const span [.name label, .name "value"]

def constant (c : ConstRef) (span : Span) : Resolve Tree := do
  match c with
  | .cls id => Build.node .const span [.name ((← get).classes.label id), .name "class"]
  | .value label => word label span

/-- The storage of an instance variable. A variable that no method of the class has is `nil`. -/
def instanceVariable (name : String) (ctx : Context) (span : Span) : Resolve Tree := do
  match ctx.instanceVars with
  | .field id =>
    match (← get).classes.variableOffset? id name with
    | some k => Build.node .index span [.name "self", .int k]
    | none => return .nil
  | .word _ => word ((← get).staticWord ctx name).label span
  | .dynamic => Build.send span (.name "self") "instance_variable_get" [.sym name]

/-- The storage that a name stands for where it is read. -/
def readName (name : String) (ctx : Context) (span : Span) : Resolve Tree := do
  if VarName.isConstant name then
    match (← get).constant? ctx.lexical name with
    | some c => constant c span
    | none => Resolve.fail (.uninitializedConstant name) span
  else if VarName.isGlobal name || VarName.isClassVariable name then
    word ((← get).staticWord ctx name).label span
  else if VarName.startsWithAt name then instanceVariable name ctx span
  else return .name name

/-- The storage of a target of an assignment that is a name. -/
def nameTarget (name : String) (ctx : Context) (span : Span) : Resolve Tree := do
  if VarName.isConstant name then
    let r ← get
    word (r.constantLabel (r.definingNamespace ctx) name) span
  else readName name ctx span

def store (storage value : Tree) (span : Span) : Resolve Tree :=
  match storage with
  | .name n =>
    if VarName.isPseudo n then Resolve.fail (.notAssignable n) span
    else Build.node .assign span [storage, value]
  | e =>
    if e.is .const || e.is .index then Build.node .assign span [storage, value]
    else Resolve.fail (.notAssignable e.print) span

/-- Assignment of a value that is resolved already. An instance variable that is found by name is set
by a call. -/
def assign (target value : Tree) (ctx : Context) (span : Span) : Resolve Tree := do
  match target with
  | .name name =>
    if VarName.startsWithAt name && !VarName.isClassVariable name && ctx.instanceVars == .dynamic then
      Build.send span (.name "self") "instance_variable_set" [.sym name, value]
    else store (← nameTarget name ctx span) value span
  | .node .path s id children =>
    let t : Node := ⟨.path, s, id, children⟩
    let r ← get
    let cls ← Resolve.ofExcept (r.classPath ctx s (t.child 0))
    let storage ← word (r.constantLabel (r.namespaceOf cls) ((t.name? 1).getD "")) s
    store storage value span
  | .node .topPath s id children =>
    let name := ((Node.mk .topPath s id children).name? 0).getD ""
    store (← word ((← get).constantLabel none name) s) value span
  | other => Resolve.fail (.notAssignable other.print) (other.spanOr span)

/-- The arguments of a bare `super`: the parameters of the method. -/
def forwarded (params : Tree) (span : Span) : Resolve Tree := do
  let plain := params.children.filter fun p => p.name?.isSome
  let rest := (params.children.filter (·.is .rest)).filterMap fun p =>
    p.children.head?.bind Tree.name?
  match rest.getLast? with
  | none => Build.args span plain
  | some r =>
    let head ← Build.node .array span plain
    let tail ← Build.send span (.name r) "to_a" []
    let all ← Build.send span head "+" [tail]
    let splat ← Build.node .splat span [all]
    Build.args span [splat]

/-- The label of the method that `super` calls: the next one behind the class of the method. -/
def superTarget (m : MethodScope) (owner : ClassId) : Resolve String := do
  let t := (← get).classes
  return (t.methodAmong? (t.ancestors owner).tail m.name).getD (Label.missingMethod m.name)

section

variable (rec : Place → Tree → Resolve Tree)

/-- Resolve a tree that no construct with a place of its own holds. -/
def inner (ctx : Context) (e : Tree) : Resolve Tree := rec (ctx, .zero) e

/-- A call of `super`. Without a block of its own it passes on the block of the method. -/
def superCall (ctx : Context) (n : Node) (explicit : Bool) : Resolve Tree := do
  let some m := ctx.method | Resolve.fail .superOutsideMethod n.span
  let some owner := m.owner | Resolve.fail .superInSingleton n.span
  if ((← get).classes.info owner).kind = .mixin then Resolve.fail .superInModule n.span
  let label ← superTarget m owner
  let args ← if explicit then inner rec ctx (n.child 0) else forwarded m.params n.span
  let block := n.child (if explicit then 1 else 0)
  let block ←
    if block.isAbsent then
      pure (.name ((Yield.blockParam? m.params).getD Yield.methodBlock))
    else inner rec ctx block
  Build.node .super n.span [.name label, args, block]

/-- A method definition, whose name, parameters and body stand from place `i` on. -/
def methodAt (ctx : Context) (n : Node) (i : Nat) : Resolve Tree := do
  let r ← get
  let some site := r.methodSites[(⟨r.unit, n.id⟩ : SiteKey)]?
    | Resolve.fail .uncollectedMethod n.span
  let name := n.child i
  let params := n.child (i + 1)
  let body ← inner rec (r.methodContext ctx (name.name?.getD "") site.owner params) (n.child (i + 2))
  if site.install = .onObject && n.tag == .singletonMethod then
    let receiver ← inner rec ctx (n.child 0)
    Build.node .singletonMethod n.span [receiver, name, .name site.label, params, body]
  else
    Build.node .method n.span [name, .name site.label, .name site.install.text, params, body]

/-- The body of a class that is known, and its number. -/
def classBody (ctx : Context) (n : Node) (id : ClassId) : Resolve Tree := do
  let site := (← get).sites
  modify fun r => { r with sites := r.sites + 1 }
  let r ← get
  let context := if n.tag == .singletonClass then r.singletonContext ctx id else r.bodyContext ctx id
  let body ← inner rec context (n.child (if n.tag == .classBody then 2 else 1))
  Build.node .classBody n.span [.name ((← get).classes.label id), .int site, body]

/-- The body of an object's class, which is known for `self` in the body of a class. -/
def singletonClass (ctx : Context) (n : Node) : Resolve Tree := do
  match (← get).openedSingleton? ctx (n.child 0) with
  | some id => classBody rec ctx n id
  | none =>
    let object ← inner rec ctx (n.child 0)
    let body ← inner rec (Resolver.dynamicContext ctx) (n.child 1)
    return n.rebuild [object, body]

/-- The children of a node, with the one at place `skip` as it is. -/
def childrenBut (ctx : Context) (n : Node) (skip : Nat) : Resolve Tree := do
  let children ← n.children.mapIdx (fun i e => (i, e)) |>.mapM fun (i, e) =>
    if i = skip then pure e else rec (ctx, n.span) e
  return n.rebuild children

def step (place : Place) (e : Tree) : Resolve Tree := do
  let (ctx, around) := place
  match e with
  | .name name => readName name ctx around
  | .node tag span id children =>
    let n : Node := ⟨tag, span, id, children⟩
    let r ← get
    match tag with
    | .classBody | .moduleBody =>
      match r.classSites[(⟨r.unit, id⟩ : SiteKey)]? with
      | some cls => classBody rec ctx n cls
      | none => n.mapChildren (rec (ctx, span))
    | .singletonClass => singletonClass rec ctx n
    | .method => methodAt rec ctx n 0
    | .singletonMethod => methodAt rec ctx n 1
    | .inclusion | .aliasing => return .nil
    | .super => superCall rec ctx n true
    | .implicitSuper => superCall rec ctx n false
    | .assign =>
      let value ← rec (ctx, span) (n.child 1)
      assign (n.child 0) value ctx span
    | .path | .topPath =>
      constant (← Resolve.ofExcept (r.constantPath ctx span e)) span
    | .defined =>
      let path := n.child 0
      let known := (path.name?.isSome || path.node?.isSome)
        && (r.constantPath ctx span path).toOption.isSome
      return if known then .text "constant" else .nil
    | .lambda =>
      let body ← inner rec ctx (n.child 1)
      return n.rebuild [n.child 0, body]
    | .call => if n.directive?.isSome then return .nil else childrenBut rec ctx n 0
    | .send | .safeSend => childrenBut rec ctx n 1
    | _ => n.mapChildren (rec (ctx, span))
  | e => return e

end

end Storage

/-- Resolve the names of unit number `unit`, whose next node gets the identity `nextId`. -/
def resolve (unit nextId : Nat) (e : Tree) : Resolve Tree := do
  modify ({ · with unit, nextId })
  Tree.recurse Storage.step ((← get).topContext, .zero) e

end Garnet
