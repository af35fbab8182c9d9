import Garnet.Reading.Rules

/-!
# Arguments

Arguments of calls, with and without parentheses, and the items of array and hash literals. Pairs
among the arguments are gathered into one hash at their end; an argument behind `&` is the block.
-/

namespace Garnet

/-- Arguments, and the block passed with them. -/
structure Arguments where
  items : List Tree
  block : Tree

/-- Whether the next token starts the first argument of a call without parentheses. An operator with a
space behind it does not, and neither does what opens a block. -/
def Parse.startsArgument : Parse Bool := do
  let token ← peek
  return token.spaceBefore && match token.kind with
    | .keyword w =>
      ["nil", "true", "false", "self", "not", "defined?", "case", "begin", "def", "yield", "super",
        "__FILE__", "__LINE__"].contains w
    | .punct p =>
      ["(", "[", "->", "::", "!"].contains p
        || (["-", "*", "**", "&", "~"].contains p && !token.spaceAfter)
    | .newline | .eof => false
    | _ => true

namespace Rules

open Parse

/-- What the arguments read so far come to: plain ones and pairs, both last first, and the block. -/
structure Gathered where
  items : List Tree := []
  pairs : List Tree := []
  block : Tree := .absent

def argument (r : Rules) (ctx : ExprContext) (acc : Gathered) : Parse Gathered := do
  match ← peekKind with
  | .label key =>
    let token ← next
    r.skipNewlines
    let value ← r.expr ctx
    let pair ← Build.node .pair (← since token.span) [.sym key, value]
    return { acc with pairs := pair :: acc.pairs }
  | _ =>
    let value ← r.expr ctx
    if ← acceptPunct "=>" then
      r.skipNewlines
      let v ← r.expr ctx
      let last := (← get).lastSpan
      let pair ← Build.node .pair ((value.spanOr last).merge last) [value, v]
      return { acc with pairs := pair :: acc.pairs }
    else if value.is .blockPass then return { acc with block := value }
    else if value.is .doubleSplat then return { acc with pairs := value :: acc.pairs }
    else return { acc with items := value :: acc.items }

/-- Read arguments with commas between them, up to a closing parenthesis if they stand in
parentheses. -/
def argumentsFrom (r : Rules) (ctx : ExprContext) (parens : Bool) :
    Nat → Gathered → Parse Gathered
  | 0, acc => return acc
  | fuel + 1, acc => do
    if parens then r.skipNewlines
    if parens then
      if ← atPunct ")" then return acc
    let acc ← r.argument ctx acc
    if ← acceptPunct "," then argumentsFrom r ctx parens fuel acc else return acc

def argumentList (r : Rules) (ctx : ExprContext) (parens : Bool) : Parse Arguments := do
  let acc ← r.argumentsFrom ctx parens r.fuel {}
  if parens then r.skipNewlines
  match acc.pairs.reverse with
  | [] => return ⟨acc.items.reverse, acc.block⟩
  | first :: rest =>
    let span ← since (first.spanOr (← get).lastSpan)
    let hash ← Build.node .hash span (first :: rest)
    return ⟨(hash :: acc.items).reverse, acc.block⟩

/-- Read arguments behind an opening parenthesis, and the closing one. -/
def parenArguments (r : Rules) : Parse Arguments := do
  let arguments ← r.argumentList {} true
  expectPunct ")"
  return arguments

/-- Read arguments without parentheses; a `do` behind them belongs to the call. -/
def commandArguments (r : Rules) (ctx : ExprContext) : Parse Arguments :=
  r.argumentList { ctx with noDo := true } false

/-- Read arguments in parentheses, arguments without them, or none. -/
def optionalArguments (r : Rules) (ctx : ExprContext) : Parse Arguments := do
  if ← atTightParen then
    let _ ← next
    r.parenArguments
  else if ← startsArgument then r.commandArguments ctx
  else return ⟨[], .absent⟩

/-- Read items with commas between them up to a closing bracket. -/
def itemsFrom (r : Rules) : Nat → Parse (List Tree)
  | 0 => return []
  | fuel + 1 => do
    r.skipNewlines
    if ← atPunct "]" then return []
    let e ← r.expr {}
    r.skipNewlines
    if ← acceptPunct "," then return e :: (← itemsFrom r fuel) else return [e]

/-- Read the items of an array literal or an index, and the closing bracket. -/
def listItems (r : Rules) : Parse (List Tree) := do
  let items ← r.itemsFrom r.fuel
  r.skipNewlines
  expectPunct "]"
  return items

def hashEntry (r : Rules) : Parse Tree := do
  let token ← next
  match token.kind with
  | .label key =>
    r.skipNewlines
    let value ← r.expr {}
    Build.node .pair (← since token.span) [.sym key, value]
  | _ =>
    pushBack token
    let key ← r.expr {}
    if key.is .doubleSplat then return key
    r.skipNewlines
    expectPunct "=>"
    r.skipNewlines
    let value ← r.expr {}
    Build.node .pair (← since token.span) [key, value]

/-- Read entries with commas between them up to a closing brace. -/
def entriesFrom (r : Rules) : Nat → Parse (List Tree)
  | 0 => return []
  | fuel + 1 => do
    r.skipNewlines
    if ← atPunct "\x7d" then return []
    let e ← r.hashEntry
    r.skipNewlines
    if ← acceptPunct "," then return e :: (← entriesFrom r fuel) else return [e]

/-- Read a hash literal behind its opening brace. -/
def hashLiteral (r : Rules) (start : Span) : Parse Tree := do
  let pairs ← r.entriesFrom r.fuel
  r.skipNewlines
  expectPunct "\x7d"
  Build.node .hash (← since start) pairs

end Rules

end Garnet
