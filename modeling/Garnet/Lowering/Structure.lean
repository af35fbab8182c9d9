import Garnet.Lowering.Destructuring

/-!
# Forms with a structure of their own

Loops over collections, assignment to several targets, parameters that take a value apart, the
unpacking of a lone array for a block with several parameters, interpolation, ranges and regular
expressions are expressed by calls and simple assignments.
-/

namespace Garnet

namespace Structure

open Destructuring

/-- A body behind the statements that prepare it. -/
def prepend (prologue : List Tree) (body : Tree) (span : Span) : Pass Tree :=
  if prologue.isEmpty then return body else Build.seq span (prologue ++ [body])

section

variable (rec : Tree → Pass Tree)

/-- A loop over a collection calls `each` with a block that sets the loop's variables. They are set to
themselves first, so that they belong to the scope around the block. -/
def forLoop (n : Node) : Pass Tree := do
  let span := n.span
  let var := n.child 0
  let collection ← rec (n.child 1)
  let body ← rec (n.child 2)
  let param ← Build.temp "for"
  let targets := if var.is .array then var.children else [var]
  let outer ← (targets.filterMap Tree.name?).mapM fun v => Build.assign (.name v) (.name v) span
  let bind ←
    if var.is .array then assignAll assignTarget targets ⟨.name param, span⟩
    else Build.assign var (.name param) span
  let body ← Build.seq span [bind, body]
  let params ← Build.args span [.name param]
  let block ← Build.node .lambda span [params, body]
  let args ← Build.args span []
  let loop ← Build.node .send span [collection, .name "each", args, block]
  Build.seq span (outer ++ [loop])

/-- The pieces of an interpolated string, joined from left to right. -/
def joinParts (span : Span) : Option Tree → List Tree → Pass (Option Tree)
  | acc, [] => return acc
  | acc, part :: parts => do
    let piece ← match part with
      | .str bytes => pure (.str bytes)
      | other => do
        let value ← rec other
        Build.send (other.spanOr span) value "to_s" []
    let acc ← match acc with
      | none => pure piece
      | some e => Build.send span e "+" [piece]
    joinParts span (some acc) parts

/-- An interpolated string is a sum, and always a new string. -/
def interpolation (n : Node) : Pass Tree := do
  match ← joinParts rec n.span none n.children with
  | some (.str bytes) => Build.send n.span (.str bytes) "+" [.str []]
  | some e => return e
  | none => return .str []

/-- A range is made by a call that says whether the end is left out. -/
def rangeLiteral (n : Node) (exclusive : Bool) : Pass Tree := do
  let ends ← n.children.mapM fun e => if e.isAbsent then pure .nil else rec e
  Build.send n.span (.name "Range") "new" (ends ++ [.bool exclusive])

/-- A regular expression is made by a call with its source, and its flags if it has any. -/
def regexLiteral (n : Node) : Pass Tree :=
  let flags := match n.child 1 with
    | .str [] => []
    | e => [e]
  Build.send n.span (.name "Regexp") "new" (n.child 0 :: flags)

/-- One parameter without a group, and the statements that take a group apart. -/
def simpleParam (p : Tree) : Pass (Tree × List Tree) :=
  match p with
  | .node .destruct span _ children => do
    let tmp ← Build.temp "arg"
    return (.name tmp, ← bindElements assignTarget tmp (children.map paramTarget) span)
  | .node .default span id children | .node .keywordArg span id children => do
    let n : Node := ⟨if p.is .default then .default else .keywordArg, span, id, children⟩
    let value ← rec (n.child 1)
    return (n.rebuild [n.child 0, value], [])
  | p => return (p, [])

/-- The parameters without groups, and the statements that take the groups apart. -/
def simpleParams (params : Tree) : Pass (Tree × List Tree) := do
  match params.node? with
  | none => return (params, [])
  | some n =>
    let pairs ← n.children.mapM (simpleParam rec)
    return (n.rebuild (pairs.map Prod.fst), pairs.flatMap Prod.snd)

/-- A method definition whose parameters stand at place `i`, with the body behind them. -/
def definition (n : Node) (i : Nat) : Pass Tree := do
  let (params, prologue) ← simpleParams rec (n.child i)
  let body ← rec (n.child (i + 1))
  let body ← prepend prologue body n.span
  let children := (n.children.set i params).set (i + 1) body
  let children ←
    if n.tag == .singletonMethod then do pure (children.set 0 (← rec (children.head?.getD .absent)))
    else pure children
  return n.rebuild children

/-- The parameters of a block that takes its arguments as one array: the targets, the defaults, and
the parameters that stay. -/
structure Packed where
  targets : List Tree := []
  defaults : List (Tree × Tree) := []
  kept : List Tree := []

def packParam (acc : Packed) (p : Tree) : Pass Packed :=
  match p with
  | .name _ | .node .destruct _ _ _ => return { acc with targets := acc.targets ++ [p] }
  | .node .default span id children => do
    let n : Node := ⟨.default, span, id, children⟩
    let value ← rec (n.child 1)
    return { acc with
      targets := acc.targets ++ [n.child 0]
      defaults := acc.defaults ++ [(n.child 0, value)] }
  | .node .rest span id children => do
    let target ← Build.node .splat span [(Node.mk .rest span id children).child 0]
    return { acc with targets := acc.targets ++ [target] }
  | p => return { acc with kept := acc.kept ++ [p] }

/-- The statements that unpack a lone array among the arguments. -/
def unpackLone (packed : Tree) (span : Span) : Pass Tree := do
  let length ← Build.send span packed "length" []
  let single ← Build.send span length "==" [.int 1]
  let first ← Build.send span packed "[]" [.int 0]
  let isArray ← Build.send span first "is_a?" [.name "Array"]
  let test ← Build.node .and span [single, isArray]
  let unpack ← Build.assign packed first span
  Build.cond span test unpack .nil

/-- The statement that gives a parameter its default. -/
def applyDefault (span : Span) (entry : Tree × Tree) : Pass Tree := do
  let missing ← Build.send span entry.1 "nil?" []
  let set ← Build.assign entry.1 entry.2 span
  Build.cond span missing set .nil

/-- Whether a block takes its arguments as one array: it has several places to fill. -/
def takesPacked (params : List Tree) : Bool :=
  let places := params.countP fun p =>
    p.name?.isSome || p.is .destruct || p.is .default
  2 ≤ places || (places == 1 && params.any (·.is .rest))

/-- A block. One that is not strict and has several places to fill takes its arguments as one array,
and unpacks an array that is the only argument. -/
def block (n : Node) (strict : Bool) : Pass Tree := do
  let span := n.span
  let params := n.child 0
  let body ← rec (n.child 1)
  if strict || !takesPacked params.children then
    let (params, prologue) ← simpleParams rec params
    return n.rebuild [params, ← prepend prologue body span]
  let packed ← Build.temp "blk"
  let sorted ← params.children.foldlM (packParam rec) {}
  let unpack ← unpackLone (.name packed) span
  let binds ← bindElements assignTarget packed sorted.targets span
  let defaults ← sorted.defaults.mapM (applyDefault span)
  let rest ← Build.node .rest span [.name packed]
  let params ← match params.node? with
    | some p => pure (p.rebuild (rest :: sorted.kept))
    | none => Build.args span (rest :: sorted.kept)
  return n.rebuild [params, ← prepend (unpack :: binds ++ defaults) body span]

/-- A call of `lambda` with a block makes the block strict. -/
def isLambdaCall (n : Node) : Bool := n.name? 0 == some "lambda" && (n.child 2).is .lambda

def step (e : Tree) : Pass Tree :=
  match e.node? with
  | none => return e
  | some n =>
    match n.tag with
    | .forLoop => forLoop rec n
    | .multiAssign => do
      let value ← rec (n.child 1)
      assignAll assignTarget (n.child 0).children ⟨value, n.span⟩
    | .interp => interpolation rec n
    | .range => rangeLiteral rec n false
    | .exclusiveRange => rangeLiteral rec n true
    | .regex => regexLiteral n
    | .lambda => block rec n false
    | .method => definition rec n 1
    | .singletonMethod => definition rec n 2
    | .call =>
      match (n.child 2).node? with
      | some b =>
        if isLambdaCall n then do
          let b ← block rec b true
          let args ← rec (n.child 1)
          return n.rebuild [n.child 0, args, b]
        else n.mapChildren rec
      | none => n.mapChildren rec
    | _ => n.mapChildren rec

end

end Structure

/-- Express the forms with a structure of their own by calls and simple assignments. -/
def lowerStructure (e : Tree) : Pass Tree := Tree.recurse (fun rec _ e => Structure.step (rec ()) e) () e

end Garnet
