import Garnet.Class.Builtin
import Garnet.Lowering.Yield
import Std.Data.HashSet

/-!
# Where names live

What a name stands for depends on where it is read: constants on the classes around it, instance
variables on what `self` is there. A `Context` holds what the answer depends on, a `Resolver` what is
known of the whole program.
-/

namespace Garnet

/-- What a word of static storage holds. -/
inductive StaticKind where
  | global
  | constant
  | classVariable
  | classInstanceVariable
deriving DecidableEq, Repr

/-- How a method gets into a method table. -/
inductive Install where
  /-- It stands in the table of its class from the start. -/
  | static
  /-- It is stored into the table that `self` points at, when the definition runs. -/
  | onSelf
  /-- It is stored into the class of one object. -/
  | onObject
deriving DecidableEq, Repr

def Install.text : Install → String
  | .static => "static"
  | .onSelf => "self"
  | .onObject => "eigen"

/-- What is known of a method definition. -/
structure MethodSite where
  label : String
  install : Install
  /-- The class that the method is defined in, if it is known. -/
  owner : Option ClassId
deriving DecidableEq, Repr

/-- Where instance variables live. -/
inductive VariableHome where
  /-- In a word of the instances of a class. -/
  | field (cls : ClassId)
  /-- In a static word whose label starts so. -/
  | word (stem : String)
  /-- Found by name when the program runs. -/
  | dynamic
deriving DecidableEq, Repr

/-- The method around a tree. -/
structure MethodScope where
  name : String
  owner : Option ClassId
  params : Tree

/-- What surrounds a tree. -/
structure Context where
  /-- The classes and modules around it, innermost one first. -/
  lexical : List ClassId
  /-- The class that gets the methods defined here, if it is known. -/
  definee : Option ClassId
  instanceVars : VariableHome
  method : Option MethodScope

/-- What a constant names. -/
inductive ConstRef where
  | cls (id : ClassId)
  | value (label : String)
deriving DecidableEq, Repr

/-- A node of a unit. -/
structure SiteKey where
  unit : Nat
  node : Nat
deriving DecidableEq, Repr, Hashable

/-- What is known of a program. -/
structure Resolver where
  labels : LabelTable
  classes : ClassTable
  /-- The constants that have a value, with the class they belong to. -/
  constants : Std.HashSet (Option ClassId × String) := {}
  statics : Std.TreeMap String StaticKind := {}
  classSites : Std.HashMap SiteKey ClassId := {}
  methodSites : Std.HashMap SiteKey MethodSite := {}
  /-- How many definitions have claimed a label. -/
  definitions : Std.HashMap String Nat := {}
  /-- The methods of objects so far. -/
  singletons : Nat := 0
  /-- The class bodies resolved so far. -/
  sites : Nat := 0
  /-- The unit at hand; identities of nodes are unique within a unit. -/
  unit : Nat := 0
  /-- The identity of the next node. -/
  nextId : Nat := 0

/-- A fault of transformation: what is wrong, and where. -/
structure Fault where
  cause : TransformCause
  span : Span

instance : Coe Fault CompileError := ⟨fun e => .transform e.cause e.span⟩

abbrev Resolve := EStateM Fault Resolver

instance {ε : Type} : Fresh (EStateM ε Resolver) where
  fresh := modifyGet fun r => (r.nextId, { r with nextId := r.nextId + 1 })

def Resolve.fail {α : Type} (cause : TransformCause) (span : Span) : Resolve α := throw ⟨cause, span⟩

/-- The outcome of a computation that changes nothing. -/
def Resolve.ofExcept {α : Type} : Except Fault α → Resolve α
  | .ok a => return a
  | .error e => throw e

namespace Resolver

/-- What is known before any unit is seen: the classes of the run-time library. -/
def start (labels : LabelTable) : Resolver :=
  let classes := ClassTable.initial
  let add (t : LabelTable) (c : ClassInfo) : LabelTable :=
    (t.insert c.label ⟨"class", c.name⟩).toOption.getD t
  { labels := classes.classes.foldl add labels, classes }

def object (r : Resolver) : ClassId := (r.classes.lookup? "Object").getD 0

def topContext (r : Resolver) : Context where
  lexical := []
  definee := some r.object
  instanceVars := .word "__ivar__main"
  method := none

/-! ### Constants -/

def externalConstants : List String := ["ARGV", "ENV", "STDIN", "STDOUT", "STDERR", "RUBY_VERSION"]

/-- The namespace of a class; that of `Object` is the top level. -/
def namespaceOf (r : Resolver) (id : ClassId) : Option ClassId := if id = r.object then none else some id

/-- The namespace in which a context defines constants. -/
def definingNamespace (r : Resolver) (ctx : Context) : Option ClassId :=
  ctx.lexical.head?.bind r.namespaceOf

def constantLabel (r : Resolver) (ns : Option ClassId) (name : String) : String :=
  match ns with
  | some id => "__const__" ++ r.classes.label id ++ "__" ++ Label.mangle name
  | none => "__const__" ++ Label.mangle name

def constantName (r : Resolver) (ns : Option ClassId) (name : String) : String :=
  match ns with
  | some id => (r.classes.info id).name ++ "::" ++ name
  | none => name

def constantIn? (r : Resolver) (name : String) (ns : Option ClassId) : Option ConstRef :=
  match r.classes.lookup? (r.constantName ns name) with
  | some id => some (.cls id)
  | none =>
    if r.constants.contains (ns, name) || (ns.isNone && externalConstants.contains name) then
      some (.value (r.constantLabel ns name))
    else none

/-- What a constant names here: it is looked for in the classes around, from the innermost one
outwards, then in the ancestors of the innermost one, then at the top level. -/
def constant? (r : Resolver) (lexical : List ClassId) (name : String) : Option ConstRef :=
  let inherited := lexical.head?.elim [] fun id => (r.classes.ancestors id).tail
  (lexical ++ inherited).findSome? (fun id => r.constantIn? name (r.namespaceOf id))
    |>.or (r.constantIn? name none)

/-- What a constant of a class or of its ancestors names. -/
def constantOf? (r : Resolver) (id : ClassId) (name : String) : Option ConstRef :=
  (id :: (r.classes.ancestors id).tail).findSome? fun c => r.constantIn? name (r.namespaceOf c)

def asClass (path : Tree) (around : Span) : ConstRef → Except Fault ClassId
  | .cls id => .ok id
  | .value _ => .error ⟨.notAClass path.print, path.spanOr around⟩

/-- What a path names. A bare name has no place of its own, so faults are reported `around` it. -/
def constantPath (r : Resolver) (ctx : Context) (around : Span) :
    Tree → Except Fault ConstRef
  | .name name => found (.uninitializedConstant name) around (r.constant? ctx.lexical name)
  | .node .topPath span id children =>
    let name := ((Node.mk .topPath span id children).name? 0).getD ""
    found (.uninitializedConstant name) span (r.constantIn? name none)
  | .node .path span _ (scope :: rest) => do
    let c ← asClass scope span (← constantPath r ctx span scope)
    let name := (rest.head?.bind Tree.name?).getD ""
    let full := (r.classes.info c).name ++ "::" ++ name
    found (.uninitializedConstant full) span (r.constantOf? c name)
  | .node .path span _ [] => .error ⟨.dynamicPath Tree.absent.print, span⟩
  | other => .error ⟨.dynamicPath other.print, other.spanOr around⟩
where
  /-- What was found, or a fault. -/
  found (cause : TransformCause) (span : Span) : Option ConstRef → Except Fault ConstRef
    | some c => .ok c
    | none => .error ⟨cause, span⟩

def classPath (r : Resolver) (ctx : Context) (around : Span) (path : Tree) :
    Except Fault ClassId := do
  asClass path around (← r.constantPath ctx around path)

/-- The full name of a class that is defined under a path. -/
def definedName (r : Resolver) (ctx : Context) (around : Span) (path : Tree) :
    Except Fault String :=
  match path with
  | .name name => .ok (r.constantName (r.definingNamespace ctx) name)
  | .node .topPath span id children =>
    .ok (((Node.mk .topPath span id children).name? 0).getD "")
  | .node .path span id children => do
    let n : Node := ⟨.path, span, id, children⟩
    let c ← r.classPath ctx span (n.child 0)
    return (r.classes.info c).name ++ "::" ++ (n.name? 1).getD ""
  | other => .error ⟨.invalidClassName other.print, other.spanOr around⟩

/-! ### Variables -/

/-- The start of the labels of a class object's instance variables. -/
def classVariableStem (r : Resolver) (id : ClassId) : String := "__civar__" ++ r.classes.label id

/-- Where instance variables live in methods of a class. -/
def methodVariables (r : Resolver) (owner : Option ClassId) : VariableHome :=
  match owner with
  | none => .dynamic
  | some id =>
    let c := r.classes.info id
    match c.kind with
    | .metaclass => c.owner.elim .dynamic fun o => .word (r.classVariableStem o)
    | .ordinary => if c.builtin then .dynamic else .field id
    | .mixin => .dynamic

def bodyContext (r : Resolver) (outer : Context) (id : ClassId) : Context where
  lexical := id :: outer.lexical
  definee := some id
  instanceVars := .word (r.classVariableStem id)
  method := none

/-- The context of the body of a class object's class. -/
def singletonContext (r : Resolver) (outer : Context) (id : ClassId) : Context :=
  { r.bodyContext outer id with lexical := outer.lexical }

/-- The context of the body of the class of an object that is not known. -/
def dynamicContext (outer : Context) : Context where
  lexical := outer.lexical
  definee := none
  instanceVars := .dynamic
  method := none

def methodContext (r : Resolver) (outer : Context) (name : String) (owner : Option ClassId)
    (params : Tree) : Context where
  lexical := outer.lexical
  definee := owner
  instanceVars := r.methodVariables owner
  method := some ⟨name, owner, params⟩

/-- A word of static storage: its label, what it holds, and how messages call that. -/
structure StaticWord where
  label : String
  kind : StaticKind
  what : String

/-- The static word of a global variable, a class variable, or an instance variable that has one. -/
def staticWord (r : Resolver) (ctx : Context) (name : String) : StaticWord :=
  let after (n : Nat) : String := Label.mangle (String.ofList (name.toList.drop n))
  if VarName.isGlobal name then ⟨"__global__" ++ after 1, .global, "global"⟩
  else if VarName.isClassVariable name then
    let cls := ctx.lexical.head?.getD r.object
    let owner := (r.classes.info cls).owner.getD cls
    ⟨"__cvar__" ++ r.classes.label owner ++ "__" ++ after 2, .classVariable, "class variable"⟩
  else
    let stem := match ctx.instanceVars with
      | .word stem => stem
      | _ => "__ivar__main"
    let bare := String.ofList (name.toList.dropWhile (· == '@'))
    ⟨stem ++ "__" ++ Label.mangle bare, .classInstanceVariable, "instance variable"⟩

/-! ### Definitions -/

/-- The class that `class << self` opens, if it is known. -/
def openedSingleton? (r : Resolver) (ctx : Context) (receiver : Tree) : Option ClassId :=
  if receiver.name? == some "self" && ctx.method.isNone then
    ctx.lexical.head?.bind fun c => (r.classes.info c).metaclass
  else none

/-- The class that gets a method defined on a receiver, if it is known. -/
def singletonTarget? (r : Resolver) (ctx : Context) (receiver : Tree) : Option ClassId :=
  match receiver with
  | .name n =>
    if n == "self" && ctx.method.isNone then
      match ctx.lexical.head? with
      | some c => (r.classes.info c).metaclass
      | none => some r.object
    else if VarName.isConstant n then
      match r.constant? ctx.lexical n with
      | some (.cls id) => (r.classes.info id).metaclass
      | _ => none
    else none
  | _ => none

end Resolver

/-! ### Calls that say something about a class -/

/-- Whether a tree is a constant or a path of constants. -/
def Tree.isConstantPath : Tree → Bool
  | .name n => VarName.isConstant n
  | e => e.is .path || e.is .topPath

/-- A call that says something about the class it stands in. -/
inductive Directive where
  /-- Include modules in the class, or in the class of the class object. -/
  | mixin (paths : List Tree) (extend : Bool)
  /-- Give a method a second name. -/
  | secondName (new old : String)

def Node.directive? (n : Node) : Option Directive :=
  let args := (n.child 1).children
  if !(n.child 2).isAbsent then none
  else
    match (n.name? 0).getD "", args with
    | "alias_method", [.sym new, .sym old] => some (.secondName new old)
    | name, paths =>
      if (name == "include" || name == "extend") && !paths.isEmpty
          && paths.all Tree.isConstantPath then
        some (.mixin paths (name == "extend"))
      else none

end Garnet
