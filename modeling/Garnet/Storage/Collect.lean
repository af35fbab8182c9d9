import Garnet.Storage.Context

/-!
# Collecting definitions

A first walk over every unit enters its classes, methods, constants and variables. Each gets a label,
and two things with the same label are a fault.
-/

namespace Garnet

namespace Collect

def register (label kind name : String) (span : Span) : Resolve Unit := do
  match (← get).labels.insert label ⟨kind, name⟩ with
  | .ok labels => modify ({ · with labels })
  | .error clash => Resolve.fail (.labelClash clash) span

def addStatic (label : String) (kind : StaticKind) (what name : String) (span : Span) :
    Resolve Unit := do
  register label what name span
  modify fun r => { r with statics := r.statics.insert label kind }

def variableName (name : String) (ctx : Context) (span : Span) : Resolve Unit := do
  let addWord : Resolve Unit := do
    let w := (← get).staticWord ctx name
    addStatic w.label w.kind w.what name span
  if VarName.isGlobal name || VarName.isClassVariable name then addWord
  else if VarName.startsWithAt name then
    match ctx.instanceVars with
    | .field id => modify fun r => { r with classes := r.classes.addVariable id name }
    | .word _ => addWord
    | .dynamic => return

def constant (ns : Option ClassId) (name : String) (span : Span) : Resolve Unit := do
  let r ← get
  addStatic (r.constantLabel ns name) .constant "constant" (r.constantName ns name) span
  modify fun r => { r with constants := r.constants.insert (ns, name) }

/-- The class that a context's definitions belong to. -/
def target (ctx : Context) : Resolve ClassId := return ctx.definee.getD (← get).object

def includePaths (cls : ClassId) (paths : List Tree) (ctx : Context) (span : Span) :
    Resolve Unit :=
  paths.forM fun path => do
    let mixin ← Resolve.ofExcept ((← get).classPath ctx span path)
    modify fun r => { r with classes := r.classes.includeModule cls mixin }

/-- Give a method a second name. Second names of global variables are passed over. -/
def secondName (ctx : Context) (new old : String) (span : Span) : Resolve Unit := do
  if VarName.isGlobal new then return
  let cls ← target ctx
  match (← get).classes.aliasMethod cls new old with
  | .ok classes => modify ({ · with classes })
  | .error e => Resolve.fail (.missingMethod e) span

def directive (d : Directive) (ctx : Context) (span : Span) : Resolve Unit := do
  match d with
  | .mixin paths extend =>
    let cls ← target ctx
    let singleton := ((← get).classes.info cls).metaclass.getD cls
    includePaths (if extend then singleton else cls) paths ctx span
  | .secondName new old => secondName ctx new old span

/-- The label of a method without regard to earlier definitions of it. -/
def methodLabel (name : String) (owner : Option ClassId) : Resolve String := do
  match owner with
  | some id => return Label.method ((← get).classes.label id) name
  | none =>
    modify fun r => { r with singletons := r.singletons + 1 }
    return "__sdef_" ++ Numeral.decimal (← get).singletons ++ "_" ++ Label.mangle name

/-- Add a method. A definition behind the first one of a method has a number in its label. -/
def method (n : Node) (name : String) (owner : Option ClassId) (install : Install) :
    Resolve Unit := do
  let base ← methodLabel name owner
  let seen := (← get).definitions[base]?.getD 0 + 1
  modify fun r => { r with definitions := r.definitions.insert base seen }
  let label := if seen == 1 then base else base ++ "_" ++ Numeral.decimal seen ++ "_"
  let classes := (← get).classes
  let display := match owner with
    | some id => (classes.info id).name ++ "#" ++ name
    | none => "singleton #" ++ name
  register label "method" display n.span
  modify fun r =>
    let classes := match owner with
      | some id => r.classes.defineMethod id name label
      | none => { r.classes with slots := r.classes.slots.insert name }
    { r with
      classes
      methodSites := r.methodSites.insert ⟨r.unit, n.id⟩ ⟨label, install, owner⟩ }

def classSite (n : Node) (id : ClassId) : Resolve Unit :=
  modify fun r => { r with classSites := r.classSites.insert ⟨r.unit, n.id⟩ id }

section

/-- A place: what surrounds a tree, and the construct that holds it. -/
abbrev Place := Context × Span

variable (rec : Place → Tree → Resolve Unit)

/-- Treat a tree that no construct with a place of its own holds. -/
def inner (ctx : Context) (e : Tree) : Resolve Unit := rec (ctx, .zero) e

def classBody (ctx : Context) (n : Node) (kind : ClassKind) : Resolve Unit := do
  let name ← Resolve.ofExcept ((← get).definedName ctx n.span (n.child 0))
  let superclass ←
    if kind = .ordinary && !(n.child 1).isAbsent then
      some <$> Resolve.ofExcept ((← get).classPath ctx n.span (n.child 1))
    else pure none
  let id ← match (← get).classes.define name kind superclass with
    | .ok (id, classes) => do
      modify ({ · with classes })
      pure id
    | .error e => Resolve.fail (.definition e) n.span
  register ((← get).classes.label id) "class" name n.span
  classSite n id
  inner rec ((← get).bodyContext ctx id) (n.child (if kind = .ordinary then 2 else 1))

/-- Add what the body of an object's class defines. -/
def singletonClass (ctx : Context) (n : Node) : Resolve Unit := do
  inner rec ctx (n.child 0)
  match (← get).openedSingleton? ctx (n.child 0) with
  | some id => inner rec ((← get).singletonContext ctx id) (n.child 1)
  | none => inner rec (Resolver.dynamicContext ctx) (n.child 1)

/-- Add a method, whose name, parameters and body stand from place `i` on. -/
def methodAt (ctx : Context) (n : Node) (i : Nat) (owner : Option ClassId) (dynamic : Install) :
    Resolve Unit := do
  let name := (n.name? i).getD ""
  method n name owner (if owner.isSome then .static else dynamic)
  inner rec ((← get).methodContext ctx name owner (n.child (i + 1))) (n.child (i + 2))

def assignment (ctx : Context) (n : Node) : Resolve Unit := do
  match n.child 0 with
  | .name name =>
    if VarName.isConstant name then constant ((← get).definingNamespace ctx) name n.span
    else variableName name ctx n.span
  | .node .path span id children =>
    let t : Node := ⟨.path, span, id, children⟩
    let cls ← Resolve.ofExcept ((← get).classPath ctx span (t.child 0))
    constant ((← get).namespaceOf cls) ((t.name? 1).getD "") n.span
  | .node .topPath span id children =>
    constant none (((Node.mk .topPath span id children).name? 0).getD "") n.span
  | other => inner rec ctx other
  inner rec ctx (n.child 1)

def step (place : Place) (e : Tree) : Resolve Unit := do
  let (ctx, around) := place
  match e with
  | .name name => variableName name ctx around
  | .node tag span id children =>
    let n : Node := ⟨tag, span, id, children⟩
    match tag with
    | .classBody => classBody rec ctx n .ordinary
    | .moduleBody => classBody rec ctx n .mixin
    | .singletonClass => singletonClass rec ctx n
    | .method => methodAt rec ctx n 0 ctx.definee .onSelf
    | .singletonMethod =>
      inner rec ctx (n.child 0)
      methodAt rec ctx n 1 ((← get).singletonTarget? ctx (n.child 0)) .onObject
    | .inclusion => includePaths (← target ctx) children ctx span
    | .aliasing =>
      match n.child 0, n.child 1 with
      | .sym new, .sym old => secondName ctx new old span
      | _, _ => return
    | .call =>
      match n.directive? with
      | some d => directive d ctx span
      | none => children.tail.forM (inner rec ctx)
    | .assign => assignment rec ctx n
    | .defined => return
    | _ => children.forM (rec (ctx, span))
  | _ => return

end

end Collect

/-- Enter what unit number `unit` defines. -/
def collect (unit : Nat) (e : Tree) : Resolve Unit := do
  modify ({ · with unit })
  Tree.recurse Collect.step ((← get).topContext, .zero) e

/-- Lay out the instance variables once all units are collected. -/
def finishCollect : Resolve Unit := modify fun r => { r with classes := r.classes.layout }

end Garnet
