import Garnet.Lowering.Pass

/-!
# Sugar

Operator assignment, negated comparisons, attributes, defaults and keywords of parameters, blocks
from symbols, splats, choices, rescue clauses and `defined?` are expressed by the forms that code can
be written for. Marks of visibility are dropped.
-/

namespace Garnet

/-! ### Operator assignment -/

namespace OperatorAssignment

section

variable (rec : Tree → Pass Tree)

/-- Put the arguments of an element into variables: the assignments, and the variables. -/
def holdArguments (span : Span) : List Tree → Pass (List Tree × List Tree)
  | [] => return ([], [])
  | a :: as => do
    let a ← rec a
    let var ← Build.temp "idx"
    let set ← Build.assign (.name var) a span
    let (sets, vars) ← holdArguments span as
    return (set :: sets, .name var :: vars)

/-- The statements that prepare a target, and the tree that reads it and can be assigned to. -/
def readTarget (target : Tree) (span : Span) : Pass (List Tree × Tree) := do
  match target with
  | .node .send s id children | .node .safeSend s id children =>
    let t : Node := ⟨.send, s, id, children⟩
    let receiver ← rec (t.child 0)
    let var ← Build.temp "recv"
    let set ← Build.assign (.name var) receiver span
    let (sets, vars) ← holdArguments rec span (t.child 2).children
    let read ← Build.send span (.name var) ((t.name? 1).getD "[]") vars
    return (set :: sets, read)
  | .name n =>
    if n == "self" || n == "nil" then Pass.fail (.notAssignable n) span
    else return ([], ← rec target)
  | other => return ([], ← rec other)

/-- The assignment, given the tree that reads the target. -/
def combine (op : String) (read value : Tree) (span : Span) : Pass Tree := do
  if op == "||" || op == "&&" then
    let write ← Build.assign read value span
    Build.node (if op == "||" then .or else .and) span [read, write]
  else
    let combined ← Build.send span read op [value]
    Build.assign read combined span

/-- An operator assignment. Below a safe call it stays below it. -/
def lower (n : Node) : Pass Tree := do
  match n.child 0 with
  | .node .safeChain s id children =>
    let chain : Node := ⟨.safeChain, s, id, children⟩
    let body ← rec (n.rebuild [chain.child 0, n.child 1, n.child 2])
    return chain.rebuild [body]
  | target =>
    let value ← rec (n.child 2)
    let (sets, read) ← readTarget rec target n.span
    let result ← combine ((n.name? 1).getD "+") read value n.span
    if sets.isEmpty then return result else Build.seq n.span (sets ++ [result])

end

end OperatorAssignment

/-! ### Choices and rescue clauses -/

namespace Choice

/-- The tests joined by `or`; `none` if there are none. -/
def anyOf (check : Tree → Pass (Span × Tree)) : Option Tree → List Tree → Pass (Option Tree)
  | acc, [] => return acc
  | acc, test :: tests => do
    let (span, e) ← check test
    let acc ← match acc with
      | none => pure e
      | some prev => Build.node .or span [prev, e]
    anyOf check (some acc) tests

/-- The check of one test, with the subject if the choice has one. A starred test is a list. -/
def check (subject : Option Tree) (around : Span) (test : Tree) : Pass (Span × Tree) := do
  let span := test.spanOr around
  match subject, test with
  | some s, .node .splat sp id children =>
    return (span, ← Build.send span ((Node.mk .splat sp id children).child 0) "include?" [s])
  | some s, test => return (span, ← Build.send span test "===" [s])
  | none, .node .splat sp id children =>
    return (span, ← Build.send span ((Node.mk .splat sp id children).child 0) "any?" [])
  | none, test => return (span, test)

/-- The check of the exception against one class. A starred class is a list. -/
def rescueCheck (exception : Tree) (span : Span) (test : Tree) : Pass (Span × Tree) := do
  match test with
  | .node .splat sp id children =>
    let own ← Build.send span exception "class" []
    return (span, ← Build.send span ((Node.mk .splat sp id children).child 0) "include?" [own])
  | test => return (span, ← Build.send span exception "is_a?" [test])

section

variable (rec : Tree → Pass Tree)

/-- The choice among arms, the last one first, before what is chosen if none of them fits. -/
def arms (subject : Option Tree) : Tree → List Node → Pass Tree
  | acc, [] => return acc
  | acc, arm :: rest => do
    let tests ← (arm.child 0).children.mapM rec
    let test ← anyOf (check subject arm.span) none tests
    let body ← rec (arm.child 1)
    let acc ← Build.cond arm.span (test.getD (.bool false)) body acc
    arms subject acc rest

def lower (n : Node) : Pass Tree := do
  let subject ← if (n.child 0).isAbsent then pure none else do pure (some (← rec (n.child 0)))
  let tmp ← Tree.name <$> Build.temp "case"
  let otherwise ← match n.children.tail.getLast? with
    | some e => if e.is .arm then pure .nil else rec e
    | none => pure .nil
  let whens := (n.children.tail.reverse.filter (·.is .arm)).filterMap Tree.node?
  let chosen ← arms rec (subject.map fun _ => tmp) otherwise whens
  match subject with
  | none => return chosen
  | some s =>
    let set ← Build.assign tmp s n.span
    Build.seq n.span [set, chosen]

/-- A rescue clause: a test of the exception, and the body behind the assignment of it. -/
def rescueClause (exception : Tree) (clause : Node) : Pass Tree := do
  let span := clause.span
  let classes ← (clause.child 0).children.mapM rec
  let classes := if classes.isEmpty then [.name "StandardError"] else classes
  let test ← anyOf (rescueCheck exception span) none classes
  let target := clause.child 1
  let set ←
    if target.isAbsent then pure []
    else do
      let target ← rec target
      pure [← Build.assign target exception span]
  let body ← rec (clause.child 2)
  let body ← Build.seq span (set ++ [body])
  Build.node .rescue span [test.getD (.bool true), body]

/-- A protected body with its clauses: the body, the variable of the exception, the clauses, and what
runs without an exception and in any case. -/
def protect (n : Node) : Pass Tree := do
  let count := n.children.length
  if count < 3 then n.mapChildren rec
  else
    let exception ← Tree.name <$> Build.temp "exc"
    let body ← rec (n.child 0)
    let clauses := ((n.children.drop 1).take (count - 3)).filterMap Tree.node?
    let clauses ← clauses.mapM (rescueClause rec exception)
    let otherwise ← rec (n.child (count - 2))
    let ensure ← rec (n.child (count - 1))
    Build.node .protect n.span (body :: exception :: clauses ++ [otherwise, ensure])

end

end Choice

/-! ### Parameters with defaults and keywords -/

namespace Parameter

/-- A keyword parameter: its name, its default, and its place. -/
structure Keyword where
  name : Tree
  default : Option Tree
  span : Span

/-- The parameters read so far. -/
structure Sorted where
  params : List Tree := []
  trailing : List Tree := []
  prologue : List Tree := []
  keywords : List Keyword := []
  positional : Nat := 0
  hasRest : Bool := false

/-- Whether a call gave fewer than `count` arguments. -/
def missing (count : Nat) (span : Span) : Pass Tree := do
  let given ← Build.node .numArgs span []
  Build.send span given "<" [.int count]

section

variable (rec : Tree → Pass Tree)

/-- Sort one parameter; `base` arguments stand before the first one. -/
def sort (base : Nat) (around : Span) (acc : Sorted) (p : Tree) : Pass Sorted :=
  match p with
  | .name _ =>
    return { acc with params := acc.params ++ [p], positional := acc.positional + 1 }
  | .node tag span id children => do
    let n : Node := ⟨tag, span, id, children⟩
    match tag with
    | .default =>
      let name := n.child 0
      let value ← rec (n.child 1)
      let missing ← missing (acc.positional + base) span
      let set ← Build.assign name value span
      let apply ← Build.cond span missing set .nil
      return { acc with
        params := acc.params ++ [name]
        prologue := acc.prologue ++ [apply]
        positional := acc.positional + 1 }
    | .keywordArg =>
      let default ←
        if (n.child 1).isAbsent then pure none else do pure (some (← rec (n.child 1)))
      return { acc with keywords := acc.keywords ++ [⟨n.child 0, default, span⟩] }
    | .rest => return { acc with trailing := acc.trailing ++ [p], hasRest := true }
    | .blockArg => return { acc with trailing := acc.trailing ++ [p] }
    | tag => Pass.fail (.unsupportedParameter ("[:" ++ tag.text ++ "]")) span
  | p => Pass.fail (.unsupportedParameter p.print) around

/-- The statements that fill one keyword parameter from a hash. -/
def fillKeyword (hash : Tree) (k : Keyword) : Pass (List Tree) := do
  let fetch ← Build.send k.span hash "[]" [.sym (k.name.name?.getD "")]
  let value ← Build.node .and k.span [hash, fetch]
  let set ← Build.assign k.name value k.span
  match k.default with
  | none => return [set]
  | some default =>
    let isNil ← Build.send k.span k.name "nil?" []
    let apply ← Build.assign k.name default k.span
    return [set, ← Build.cond k.span isNil apply .nil]

/-- The parameters with one for the keywords, and the statements that fill them. -/
def keywords (base : Nat) (span : Span) (sorted : Sorted) : Pass (List Tree × List Tree) := do
  if sorted.keywords.isEmpty then return (sorted.params, sorted.prologue)
  if sorted.hasRest then Pass.fail .keywordsAfterRest span
  let hash ← Tree.name <$> Build.temp "kwargs"
  let missing ← missing (sorted.positional + base) span
  let clear ← Build.assign hash .nil span
  let reset ← Build.cond span missing clear .nil
  let fills ← sorted.keywords.mapM (fillKeyword hash)
  return (sorted.params ++ [hash], sorted.prologue ++ reset :: fills.flatten)

def lower (params body : Tree) (base : Nat) (span : Span) : Pass (Tree × Tree) := do
  let sorted ← params.children.foldlM (sort rec base span) {}
  let (items, prologue) ← keywords base span sorted
  let items := items ++ sorted.trailing
  let body ← rec body
  let body ← if prologue.isEmpty then pure body else Build.seq span (prologue ++ [body])
  let params ← match params.node? with
    | some n => pure (n.rebuild items)
    | none => Build.args span items
  return (params, body)

end

end Parameter

/-! ### Splats -/

namespace Splat

/-- The array of a run of plain items, if there are any. -/
def flush (run : List Tree) (span : Span) : Pass (List Tree) :=
  if run.isEmpty then return [] else return [← Build.node .array span run]

/-- The arrays that make up a list, where `run` are the plain items before it. -/
def parts (span : Span) : List Tree → List Tree → Pass (List Tree)
  | run, [] => flush run span
  | run, .node .splat s id children :: items => do
    let before ← flush run span
    let part ← Build.send s ((Node.mk .splat s id children).child 0) "to_a" []
    return before ++ part :: (← parts span [] items)
  | run, item :: items => parts span (run ++ [item]) items

def sum (span : Span) : Tree → List Tree → Pass Tree
  | acc, [] => return acc
  | acc, part :: rest => do
    let acc ← Build.send span acc "+" [part]
    sum span acc rest

/-- A list with starred items as one array. The sum starts with an array that is written out. -/
def array (items : List Tree) (span : Span) : Pass Tree := do
  match ← parts span [] items with
  | part :: rest =>
    if part.is .array then sum span part rest
    else do
      let start ← Build.node .array span []
      sum span start (part :: rest)
  | [] => Build.node .array span []

def mergeRun (acc : Option Tree) (run : List Tree) (span : Span) : Pass Tree := do
  match acc with
  | some e =>
    if run.isEmpty then return e
    else do
      let group ← Build.node .hash span run
      Build.send span e "merge" [group]
  | none => Build.node .hash span run

/-- The hash of entries, where `acc` and `run` are the hash and the plain entries before them. -/
def hash (span : Span) : Option Tree → List Tree → List Tree → Pass Tree
  | acc, run, [] => mergeRun acc run span
  | acc, run, .node .doubleSplat s id children :: items => do
    let base ← mergeRun acc run span
    let e ← Build.send s base "merge" [(Node.mk .doubleSplat s id children).child 0]
    hash span (some e) [] items
  | acc, run, item :: items => hash span acc (run ++ [item]) items

end Splat

namespace Sugar

def visibility : List String :=
  ["private", "public", "protected", "module_function", "private_class_method",
    "public_class_method", "private_constant"]

/-- Calls that define methods for instance variables. -/
def attributeKinds : List String := ["attr_reader", "attr_writer", "attr_accessor"]

def denied? : String → Option String
  | "!=" => some "=="
  | "!~" => some "=~"
  | _ => none

/-- The methods that read and write one attribute. -/
def accessors (kind : String) (around : Span) (a : Tree) : Pass (List Tree) := do
  let name ← match a with
    | .sym s => pure s
    | .str bytes => pure (Utf8.decode bytes)
    | e => Pass.fail (.attributeNotSymbol kind) (e.spanOr around)
  let var := Tree.name ("@" ++ name)
  let reader ←
    if kind == "attr_writer" then pure []
    else do
      let params ← Build.args around []
      pure [← Build.node .method around [.name name, params, var]]
  let writer ←
    if kind == "attr_reader" then pure []
    else do
      let params ← Build.args around [.name "value"]
      let body ← Build.assign var (.name "value") around
      pure [← Build.node .method around [.name (name ++ "="), params, body]]
  return reader ++ writer

def attributes (kind : String) (args : List Tree) (span : Span) : Pass Tree := do
  let methods ← args.mapM (accessors kind span)
  Build.seq span (methods.flatten ++ [.nil])

def symbolBlock (message : String) (span : Span) : Pass Tree := do
  let var ← Tree.name <$> Build.temp "bp"
  let params ← Build.args span [var]
  let args ← Build.args span []
  let send (name : String) : Pass Tree := Build.node .send span [var, .name name, args, .absent]
  let body ← send message
  let id ← Fresh.fresh
  let body ← match denied? message with
    | none => pure body
    | some positive => do Build.node .not span [← send positive]
  return .node .lambda span id [params, body]

def describe (s : String) : Tree := .text s

/-- What `defined?` gives for a name that is not a constant. -/
def definedName (name : String) (span : Span) : Pass Tree :=
  if name == "self" then return describe "self"
  else if VarName.isPseudo name then return describe "expression"
  else if VarName.isLocal name then return describe "local-variable"
  else
    let kind :=
      if VarName.isClassVariable name then "class variable"
      else if VarName.startsWithAt name then "instance-variable"
      else "global-variable"
    Build.cond span (.name name) (describe kind) .nil

section

/-! ### Calls -/

variable (rec : Tree → Pass Tree)

/-- The arguments of a call. Starred ones turn the list into one array. -/
def arguments (args : Tree) : Pass Tree := do
  match args.node? with
  | none => return args
  | some n =>
    let items ← n.children.mapM rec
    if items.any (·.is .splat) then
      let array ← Splat.array items n.span
      return n.rebuild [← Build.node .splat n.span [array]]
    else return n.rebuild items

/-- The block of a call: one that is written out, one made of a symbol, or any other value. -/
def block (b : Tree) : Pass Tree :=
  match b with
  | .node .blockPass span id children =>
    match (Node.mk .blockPass span id children).child 0 with
    | .sym message => symbolBlock message span
    | e => rec e
  | e => rec e

/-- A call on `self`. -/
def call (inClass : Bool) (n : Node) : Pass Tree := do
  let name := (n.name? 0).getD ""
  let args := (n.child 1).children
  if visibility.contains name && (n.child 2).isAbsent then
    match args with
    | [e] => if e.is .method || e.is .singletonMethod then rec e else return .nil
    | _ => return .nil
  else if inClass && attributeKinds.contains name then attributes name args n.span
  else
    let args ← arguments rec (n.child 1)
    let b ← block rec (n.child 2)
    return n.rebuild [n.child 0, args, b]

def send (n : Node) : Pass Tree := do
  let receiver ← rec (n.child 0)
  let args ← arguments rec (n.child 2)
  let b ← block rec (n.child 3)
  match (n.name? 1).bind denied? with
  | some positive =>
    let call ← Build.node n.tag n.span [receiver, .name positive, args, b]
    Build.node .not n.span [call]
  | none => return n.rebuild [receiver, n.child 1, args, b]

/-! ### Other forms -/

/-- A choice between two branches. A negated test swaps them. -/
def conditional (n : Node) : Pass Tree := do
  let children ← n.children.mapM rec
  let n : Node := { n with children }
  match n.child 0 with
  | .node .not s id inner =>
    return n.rebuild [(Node.mk .not s id inner).child 0, n.child 2, n.child 1]
  | _ => return n.tree

/-- `defined?`. What it says of a constant depends on the constants there are. -/
def defined (n : Node) : Pass Tree := do
  let span := n.span
  let answer (test : Tree) (what : String) : Pass Tree := Build.cond span test (describe what) .nil
  match n.child 0 with
  | .name name => if VarName.isConstant name then return n.tree else definedName name span
  | .node tag s id children =>
    let v : Node := ⟨tag, s, id, children⟩
    match tag with
    | .path | .topPath => return n.tree
    | .call =>
      if (v.child 1).children.isEmpty then
        let test ← Build.send span (.name "self") "respond_to?"
          [.sym ((v.name? 0).getD ""), .bool true]
        answer test "method"
      else return describe "expression"
    | .send =>
      let receiver ← rec (v.child 0)
      let test ← Build.send span receiver "respond_to?" [.sym ((v.name? 1).getD "")]
      answer test "method"
    | .yield =>
      let test ← Build.call span "block_given?" []
      answer test "yield"
    | .super | .implicitSuper => return describe "super"
    | .assign | .opAssign | .multiAssign => return describe "assignment"
    | _ => return describe "expression"
  | _ => return describe "expression"

end

/-- A definition whose parameters stand at place `i`, with `base` arguments before the first one. -/
def definition (rec : Bool → Tree → Pass Tree) (inClass : Bool) (n : Node) (i base : Nat) :
    Pass Tree := do
  let (params, body) ← Parameter.lower (rec false) (n.child i) (n.child (i + 1)) base n.span
  let children ←
    if n.tag == .singletonMethod then do
      pure (n.children.set 0 (← rec inClass (n.child 0)))
    else pure n.children
  return n.rebuild ((children.set i params).set (i + 1) body)

/-- The treatment of one tree; `inClass` says whether it stands right in the body of a class. -/
def step (rec : Bool → Tree → Pass Tree) (inClass : Bool) (e : Tree) : Pass Tree :=
  match e.node? with
  | none => return e
  | some n =>
    let here := rec inClass
    match n.tag with
    | .opAssign => OperatorAssignment.lower here n
    | .cond => conditional here n
    | .call => call here inClass n
    | .send | .safeSend => send here n
    | .super => do
      let args ← arguments here (n.child 0)
      return n.rebuild [args, ← block here (n.child 1)]
    | .implicitSuper => do return n.rebuild [← block here (n.child 0)]
    | .yield => do return n.rebuild [← arguments here (n.child 0)]
    | .method => definition rec inClass n 1 3
    | .singletonMethod => definition rec inClass n 2 3
    | .lambda => definition rec inClass n 0 4
    | .classBody | .moduleBody | .singletonClass => n.mapChildren (rec true)
    | .array => do
      let items ← n.children.mapM here
      if items.any (·.is .splat) then Splat.array items n.span else return n.rebuild items
    | .hash => do
      let items ← n.children.mapM here
      if items.any (·.is .doubleSplat) then Splat.hash n.span none [] items
      else return n.rebuild items
    | .assign =>
      match n.child 1 with
      | .node .splat s id children => do
        let target ← here (n.child 0)
        let value ← here ((Node.mk .splat s id children).child 0)
        return n.rebuild [target, ← Build.send n.span value "to_a" []]
      | _ => n.mapChildren here
    | .select => Choice.lower here n
    | .protect => Choice.protect here n
    | .defined => defined here n
    | _ => n.mapChildren here

end Sugar

def lowerSugar (e : Tree) : Pass Tree := Tree.recurse Sugar.step false e

end Garnet
