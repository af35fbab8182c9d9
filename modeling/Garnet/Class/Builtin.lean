import Garnet.Class.Table

/-!
# Classes of the run-time library

The classes that every program has, the words that the run-time library keeps in their instances, and
the methods that it implements.
-/

namespace Garnet

/-- A class of the run-time library. -/
structure BuiltinClass where
  name : String
  kind : ClassKind := .ordinary
  superclass : Option String := some "Object"
  instanceVars : List String := []

namespace Builtin

/-! ### Classes -/

def classes : List BuiltinClass :=
  [{ name := "Object", superclass := none },
    { name := "Module" },
    { name := "Class", superclass := some "Module" },
    { name := "Kernel", kind := .mixin, superclass := none },
    { name := "Comparable", kind := .mixin, superclass := none },
    { name := "Enumerable", kind := .mixin, superclass := none },
    { name := "NilClass" },
    { name := "TrueClass" },
    { name := "FalseClass" },
    { name := "Integer", instanceVars := ["__sign", "__limbs"] },
    { name := "String", instanceVars := ["__length", "__buffer"] },
    { name := "Symbol", instanceVars := ["__name"] },
    { name := "Array", instanceVars := ["__length", "__capacity", "__items"] },
    { name := "Hash", instanceVars := ["__size", "__buckets", "__first", "__default"] },
    { name := "Range", instanceVars := ["@first", "@last", "@exclude_end"] },
    { name := "Regexp", instanceVars := ["@source"] },
    { name := "Proc", instanceVars := ["__function", "__env", "__self", "__frame"] },
    { name := "Exception", instanceVars := ["@message"] },
    { name := "ScriptError", superclass := some "Exception" },
    { name := "NotImplementedError", superclass := some "ScriptError" },
    { name := "StandardError", superclass := some "Exception" },
    { name := "RuntimeError", superclass := some "StandardError" },
    { name := "FrozenError", superclass := some "RuntimeError" },
    { name := "ArgumentError", superclass := some "StandardError" },
    { name := "TypeError", superclass := some "StandardError" },
    { name := "NameError", superclass := some "StandardError" },
    { name := "NoMethodError", superclass := some "NameError" },
    { name := "ZeroDivisionError", superclass := some "StandardError" },
    { name := "IndexError", superclass := some "StandardError" },
    { name := "KeyError", superclass := some "IndexError" },
    { name := "StopIteration", superclass := some "IndexError" },
    { name := "RangeError", superclass := some "StandardError" },
    { name := "LocalJumpError", superclass := some "StandardError" }]

/-! ### Methods -/

def objectMethods : List String :=
  ["puts", "print", "p", "raise", "require", "require_relative", "==", "!=", "!", "===", "=~",
    "equal?", "eql?", "hash", "class", "is_a?", "kind_of?", "instance_of?", "respond_to?", "send",
    "__send__", "__get_symbol", "inspect", "to_s", "nil?", "object_id", "freeze", "frozen?", "dup",
    "loop", "lambda", "proc", "exit", "instance_variable_get", "instance_variable_set", "tap",
    "then", "format", "sprintf", "method_missing", "initialize", "block_given?"]

def moduleObjectMethods : List String := ["name", "to_s", "inspect", "===", "==", "ancestors", "include?"]

def classObjectMethods : List String := ["new", "allocate", "superclass"]

def nilMethods : List String := ["to_s", "to_a", "to_i", "inspect", "nil?", "&", "|"]

def boolMethods : List String := ["to_s", "inspect", "&", "|", "^", "!"]

def integerMethods : List String :=
  ["+", "-", "*", "/", "%", "**", "-@", "<", "<=", ">", ">=", "==", "<=>", "&", "|", "^", "<<",
    ">>", "~", "to_s", "inspect", "times", "upto", "downto", "succ", "pred", "zero?", "even?",
    "odd?", "abs", "hash", "chr", "to_i", "divmod", "between?"]

def stringMethods : List String :=
  ["+", "*", "%", "==", "<=>", "=~", "[]", "[]=", "concat", "<<", "length", "size", "to_s",
    "to_sym", "to_i", "inspect", "upcase", "downcase", "capitalize", "reverse", "include?",
    "start_with?", "end_with?", "split", "strip", "chars", "each_char", "empty?", "hash", "eql?",
    "gsub", "sub", "index", "ord", "bytes"]

def symbolMethods : List String := ["to_s", "to_sym", "to_proc", "inspect", "==", "hash", "<=>", "length"]

def arrayMethods : List String :=
  ["[]", "[]=", "<<", "push", "pop", "shift", "unshift", "length", "size", "each",
    "each_with_index", "map", "collect", "select", "filter", "reject", "inject", "reduce", "first",
    "last", "join", "include?", "index", "empty?", "to_a", "inspect", "to_s", "==", "+", "-", "*",
    "concat", "sort", "sort_by", "reverse", "min", "max", "sum", "uniq", "compact", "flatten",
    "zip", "any?", "all?", "none?", "count", "find", "detect", "delete", "delete_at", "insert",
    "slice", "hash", "eql?", "group_by", "partition", "take", "drop", "flat_map", "each_slice",
    "min_by", "max_by", "find_index"]

def hashMethods : List String :=
  ["[]", "[]=", "each", "each_pair", "keys", "values", "key?", "has_key?", "include?", "member?",
    "fetch", "delete", "length", "size", "empty?", "to_a", "inspect", "to_s", "merge", "map",
    "select", "reject", "==", "each_key", "each_value", "count", "any?", "find", "sort_by",
    "transform_values", "to_h"]

def rangeMethods : List String :=
  ["each", "to_a", "first", "last", "begin", "end", "include?", "member?", "===", "map", "select",
    "inject", "reduce", "step", "size", "count", "sum", "reverse_each", "min", "max",
    "exclude_end?", "inspect", "to_s", "each_with_index"]

def regexpMethods : List String := ["=~", "match", "===", "source", "to_s", "inspect"]

def procMethods : List String := ["call", "[]", "yield", "to_proc", "arity", "lambda?", "==="]

def exceptionMethods : List String :=
  ["initialize", "message", "to_s", "inspect", "backtrace", "full_message"]

def comparableMethods : List String := ["<", "<=", ">", ">=", "==", "between?", "clamp"]

def enumerableMethods : List String :=
  ["map", "select", "reject", "inject", "reduce", "to_a", "each_with_index", "include?", "min",
    "max", "sort", "sort_by", "count", "first", "sum", "find", "detect", "any?", "all?"]

def methods : List (String × List String) :=
  [("Object", objectMethods), ("Module", moduleObjectMethods), ("Class", classObjectMethods),
    ("NilClass", nilMethods), ("TrueClass", boolMethods), ("FalseClass", boolMethods),
    ("Integer", integerMethods), ("String", stringMethods), ("Symbol", symbolMethods),
    ("Array", arrayMethods), ("Hash", hashMethods), ("Range", rangeMethods),
    ("Regexp", regexpMethods), ("Proc", procMethods), ("Exception", exceptionMethods),
    ("Comparable", comparableMethods), ("Enumerable", enumerableMethods)]

def classMethods : List (String × List String) := [("Proc", ["new"]), ("Exception", ["exception"])]

/-! ### The table -/

/-- Give a class the methods that the run-time library implements. -/
def addMethods (t : ClassTable) (id : ClassId) (names : List String) : ClassTable :=
  let label := t.label id
  names.foldl (fun t name => t.defineMethod id name (Label.method label name)) t

def addClass (t : ClassTable) (c : BuiltinClass) : ClassTable :=
  let (id, t) := t.insert c.name c.kind (c.superclass.bind t.lookup?) true
  c.instanceVars.foldl (fun t v => t.addVariable id v) t

/-- Add the methods of a class, or of what `pick` takes in its place. -/
def addMethodsOf (pick : ClassTable → ClassId → Option ClassId) (t : ClassTable)
    (entry : String × List String) : ClassTable :=
  match (t.lookup? entry.1).bind (pick t) with
  | some id => addMethods t id entry.2
  | none => t

end Builtin

def ClassTable.initial : ClassTable :=
  let t := Builtin.classes.foldl Builtin.addClass .empty
  let t := Builtin.methods.foldl (Builtin.addMethodsOf fun _ id => some id) t
  Builtin.classMethods.foldl (Builtin.addMethodsOf fun t id => (t.info id).metaclass) t

end Garnet
