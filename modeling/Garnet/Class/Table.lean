import Garnet.Label.Mangling
import Std.Data.TreeMap

/-!
# Classes

The classes and modules of a program, with their methods, their instance variables and the way one
inherits from another. Each has a metaclass, which holds the methods of the class object itself; the
parent of a metaclass is the metaclass of the superclass, and in the end `Class`, or `Module` for a
module.
-/

namespace Garnet

/-! ### Method slots -/

/-- The places of method names. -/
structure SlotTable where
  index : Std.HashMap String Nat := {}
  names : Array String := #[]

namespace SlotTable

def get? (t : SlotTable) (name : String) : Option Nat := t.index[name]?

def size (t : SlotTable) : Nat := t.names.size

def isEmpty (t : SlotTable) : Bool := t.names.isEmpty

/-- The table with a place for a name; one that has a place keeps it. -/
def insert (t : SlotTable) (name : String) : SlotTable :=
  if t.index.contains name then t
  else { index := t.index.insert name t.names.size, names := t.names.push name }

def reserved : List String := ["new", "__send__", "__get_symbol"]

/-- The table that has places for the first names only. -/
def initial : SlotTable := reserved.foldl insert {}

/-- Where the first place is in a class object: behind its class, the size of its instances, its name
and its superclass. -/
def headerBytes : Nat := 16

def byteOffset (slot : Nat) : Nat := headerBytes + 4 * slot

end SlotTable

abbrev ClassId := Nat

/-- What a class object is for. -/
inductive ClassKind where
  /-- A class with instances. -/
  | ordinary
  /-- A module, which classes include. -/
  | mixin
  /-- The class of a class object. -/
  | metaclass
deriving DecidableEq, Repr, Inhabited

def ClassKind.text : ClassKind → String
  | .ordinary => "class"
  | .mixin => "module"
  | .metaclass => "metaclass"

/-- A class, a module or a metaclass. -/
structure ClassInfo where
  name : String
  /-- The label of the class object. -/
  label : String
  kind : ClassKind
  superclass : Option ClassId := none
  /-- The metaclass of a class or module. -/
  metaclass : Option ClassId := none
  /-- The class that a metaclass belongs to. -/
  owner : Option ClassId := none
  /-- The labels of the methods. -/
  methods : Std.TreeMap String String := {}
  includes : List ClassId := []
  /-- The instance variables first seen in this class. -/
  instanceVars : List String := []
  /-- Known from the start, with methods of the run-time library. -/
  builtin : Bool := false
deriving Inhabited

/-- Why a class cannot be defined. -/
inductive DefineError where
  | otherKind (name : String) (wanted found : ClassKind)
  | otherSuperclass (name : String)
deriving DecidableEq, Repr

def DefineError.message : DefineError → String
  | .otherKind name wanted found =>
    name ++ " is not a " ++ wanted.text ++ ", it is a "
      ++ if found = .mixin then "module" else "class"
  | .otherSuperclass name => "superclass mismatch for class " ++ name

/-- A method that a class does not have. -/
structure MissingMethod where
  className : String
  method : String
deriving DecidableEq, Repr

def MissingMethod.message (e : MissingMethod) : String :=
  "undefined method '" ++ e.method ++ "' for class '" ++ e.className ++ "'"

/-- The classes of a program. -/
structure ClassTable where
  classes : Array ClassInfo := #[]
  byName : Std.HashMap String ClassId := {}
  slots : SlotTable := .initial
  /-- The instance variables of each class in their order, once they are laid out. -/
  layouts : Array (List String) := #[]

namespace ClassTable

def empty : ClassTable := {}

def info (t : ClassTable) (id : ClassId) : ClassInfo := t.classes[id]?.getD default

def lookup? (t : ClassTable) (name : String) : Option ClassId := t.byName[name]?

def label (t : ClassTable) (id : ClassId) : String := (t.info id).label

def modify (t : ClassTable) (id : ClassId) (f : ClassInfo → ClassInfo) : ClassTable :=
  { t with classes := t.classes.modify id f }

/-! ### Definition -/

def insert (t : ClassTable) (name : String) (kind : ClassKind) (superclass : Option ClassId)
    (builtin : Bool) : ClassId × ClassTable :=
  let id := t.classes.size
  let label := Label.ofPath name
  let own : ClassInfo := { name, label, kind, superclass, metaclass := some (id + 1), builtin }
  let singleton : ClassInfo :=
    { name := "#<Class:" ++ name ++ ">", label := "__meta_" ++ label, kind := .metaclass,
      owner := some id, builtin }
  (id, { t with classes := (t.classes.push own).push singleton, byName := t.byName.insert name id })

/-- Define a class or module, or open it again. A class without a superclass is a subclass of
`Object`. -/
def define (t : ClassTable) (name : String) (kind : ClassKind) (superclass : Option ClassId) :
    Except DefineError (ClassId × ClassTable) :=
  match t.lookup? name with
  | some id =>
    let c := t.info id
    if c.kind ≠ kind then .error (.otherKind name kind c.kind)
    else if superclass.isSome && superclass != c.superclass && !c.builtin then
      .error (.otherSuperclass name)
    else .ok (id, t)
  | none =>
    let superclass := if kind = .ordinary then superclass.or (t.lookup? "Object") else none
    .ok (t.insert name kind superclass false)

/-! ### Inheritance -/

def parent? (t : ClassTable) (id : ClassId) : Option ClassId :=
  let c := t.info id
  match c.kind with
  | .ordinary | .mixin => c.superclass
  | .metaclass => do
    let owner := t.info (← c.owner)
    match owner.superclass with
    | some s => (t.info s).metaclass
    | none => t.lookup? (if owner.kind = .mixin then "Module" else "Class")

/-- Add `id` to a list that does not hold it. -/
def addNew (out : List ClassId) (id : ClassId) : List ClassId :=
  if out.contains id then out else out ++ [id]

/-- The line from a class on, behind the classes that are in it already. A class that comes again
ends it. -/
def ancestorsFrom (t : ClassTable) : Nat → Option ClassId → List ClassId → List ClassId
  | _, none, out => out
  | 0, some _, out => out
  | n + 1, some id, out =>
    if out.contains id then out
    else ancestorsFrom t n (t.parent? id) ((t.info id).includes.reverse.foldl addNew (out ++ [id]))

/-- The order in which methods are looked up: a class, its modules, the last included one first, and
then the same for each class in the line. -/
def ancestors (t : ClassTable) (id : ClassId) : List ClassId :=
  t.ancestorsFrom (t.classes.size + 1) (some id) []

def includeModule (t : ClassTable) (id mixin : ClassId) : ClassTable :=
  t.modify id fun c => { c with includes := addNew c.includes mixin }

/-! ### Methods -/

/-- Give a class a method, and the method's name a place. -/
def defineMethod (t : ClassTable) (id : ClassId) (name label : String) : ClassTable :=
  { t.modify id fun c => { c with methods := c.methods.insert name label } with
    slots := t.slots.insert name }

/-- The first of some classes that has a method gives its label. -/
def methodAmong? (t : ClassTable) (ids : List ClassId) (name : String) : Option String :=
  ids.findSome? fun id => (t.info id).methods[name]?

/-- The label of the method that an instance of a class has. -/
def findMethod? (t : ClassTable) (id : ClassId) (name : String) : Option String :=
  t.methodAmong? (t.ancestors id) name

/-- Give the method `old` a second name, under which it stays what it is now. -/
def aliasMethod (t : ClassTable) (id : ClassId) (new old : String) :
    Except MissingMethod ClassTable :=
  match t.findMethod? id old with
  | some label => .ok (t.defineMethod id new label)
  | none => .error ⟨(t.info id).name, old⟩

/-- The methods of a class, in the order of their places. -/
def vtable (t : ClassTable) (id : ClassId) : List (Option String) :=
  let ids := t.ancestors id
  t.slots.names.toList.map (t.methodAmong? ids)

/-! ### Instance variables -/

def addVariable (t : ClassTable) (id : ClassId) (name : String) : ClassTable :=
  t.modify id fun c =>
    if c.instanceVars.contains name then c else { c with instanceVars := c.instanceVars ++ [name] }

def superclassesFrom (t : ClassTable) : Nat → Option ClassId → List ClassId → List ClassId
  | _, none, out => out
  | 0, some _, out => out
  | n + 1, some id, out =>
    if out.contains id then out
    else
      let c := t.info id
      superclassesFrom t n (if c.kind = .metaclass then none else c.superclass) (out ++ [id])

/-- The instance variables of a class in their order: those of the superclasses, then its own and
those of its modules. -/
def computeLayout (t : ClassTable) (id : ClassId) : List String :=
  let line := (t.superclassesFrom (t.classes.size + 1) (some id) []).reverse
  let own (c : ClassInfo) : List String :=
    c.instanceVars ++ c.includes.flatMap fun m => (t.info m).instanceVars
  line.foldl (fun vars id =>
    (own (t.info id)).foldl (fun vars v => if vars.contains v then vars else vars ++ [v]) vars) []

/-- Lay out the instance variables of all classes. -/
def layout (t : ClassTable) : ClassTable :=
  { t with layouts := (Array.range t.classes.size).map t.computeLayout }

/-- The word of an instance that holds a variable; the first word is the class. -/
def variableOffset? (t : ClassTable) (id : ClassId) (name : String) : Option Nat := do
  let i ← (← t.layouts[id]?).idxOf? name
  return i + 1

def instanceSize (t : ClassTable) (id : ClassId) : Nat := 1 + (t.layouts[id]?.getD []).length

end ClassTable

end Garnet
