import Garnet.Reading.Rules

/-!
# Bodies

Bodies of methods, classes and blocks: statements up to `end`, with clauses for exceptions, or
statements between braces.
-/

namespace Garnet

/-! ### Parameters -/

namespace Rules

open Parse

/-- Read the name of a parameter behind its mark, if it has one. -/
def optionalName : Parse Tree := do
  match ← peekKind with
  | .ident name =>
    let _ ← next
    declare name
    return .name name
  | _ => return .absent

/-- Read a parameter; `inBlock` if bars stand around the parameters. -/
def parameter (r : Rules) (inBlock : Bool) : Nat → Parse Tree
  | 0 => do fail .tooDeep (← get).lastSpan
  | fuel + 1 => do
    let token ← next
    let ctx : ExprContext := { noPipe := inBlock }
    match token.kind with
    | .ident name =>
      declare name
      if ← acceptPunct "=" then
        let value ← r.expr ctx
        Build.node .default (← since token.span) [.name name, value]
      else return .name name
    | .label name =>
      declare name
      let bare := [.punct ",", .punct ")", .punct "|", .newline].contains (← peekKind)
      let value ← if bare then pure .absent else r.expr ctx
      Build.node .keywordArg (← since token.span) [.name name, value]
    | .punct "*" =>
      let name ← optionalName
      Build.node .rest token.span [name]
    | .punct "&" =>
      let name ← optionalName
      if name.isAbsent then fail .namelessBlockParameter token.span
      Build.node .blockArg token.span [name]
    | .punct "**" => fail .keywordSplat token.span
    | .punct "(" =>
      let items ← commaSeparated (parameter r inBlock fuel) r.fuel
      expectPunct ")"
      Build.node .destruct (← since token.span) items
    | _ => unexpected token "parameter"

/-- Read parameters with commas between them up to a token that ends them. -/
def parametersFrom (r : Rules) (stop : TokenKind → Bool) (multiline : Bool) :
    Nat → Parse (List Tree)
  | 0 => return []
  | fuel + 1 => do
    if multiline then r.skipNewlines
    if stop (← peekKind) then return []
    let p ← r.parameter false r.fuel
    if ← acceptPunct "," then return p :: (← parametersFrom r stop multiline fuel)
    return [p]

def parameters (r : Rules) (stop : TokenKind → Bool) (multiline : Bool) : Parse Tree := do
  let start := (← peek).span
  let params ← r.parametersFrom stop multiline r.fuel
  if multiline then r.skipNewlines
  Build.node .args (← since start) params

/-- Read parameters between parentheses, the opening one being read. -/
def parenParameters (r : Rules) : Parse Tree := do
  let params ← r.parameters (Stop.punct ")") true
  expectPunct ")"
  return params

def blockLocals : Nat → Parse Unit
  | 0 => return
  | fuel + 1 => do
    match ← peekKind with
    | .ident name =>
      let _ ← next
      declare name
      let _ ← acceptPunct ","
      blockLocals fuel
    | _ => return

/-- Read parameters of a block behind the opening bar, and the closing one. A comma right before the
closing bar stands for the rest of the arguments. -/
def blockParametersFrom (r : Rules) : Nat → Parse (List Tree)
  | 0 => return []
  | fuel + 1 => do
    if ← acceptPunct "|" then return []
    if ← acceptPunct ";" then
      blockLocals r.fuel
      expectPunct "|"
      return []
    let p ← r.parameter true r.fuel
    if ← acceptPunct "," then
      if ← atPunct "|" then
        let rest ← Build.node .rest (← get).lastSpan [.absent]
        return p :: rest :: (← blockParametersFrom r fuel)
      return p :: (← blockParametersFrom r fuel)
    if ← atPunct ";" then return p :: (← blockParametersFrom r fuel)
    expectPunct "|"
    return [p]

/-- Read the parameters of a block, if it has any. -/
def blockParameters (r : Rules) : Parse Tree := do
  let start := (← peek).span
  if ← acceptPunct "||" then Build.node .args start []
  else if ← acceptPunct "|" then
    let params ← r.blockParametersFrom r.fuel
    Build.node .args (← since start) params
  else Build.node .args start []

end Rules

namespace Rules

open Parse

/-- Read what a rescue clause catches, binds and runs. -/
def rescueClause (r : Rules) (start : Span) : Parse Tree := do
  let bare := [.newline, .punct ";", .punct "=>", .keyword "then"].contains (← peekKind)
  let classes ← if bare then pure [] else r.exprs .condition
  let target ← if ← acceptPunct "=>" then Parse.target (← r.expr .condition) else pure .absent
  let _ ← acceptKeyword "then"
  let stmts ← r.statements Stop.clauseEnd
  let span ← since start
  let classes ← Build.node .array span classes
  let body ← Parse.body stmts span
  Build.node .rescue span [classes, target, body]

/-- The clauses behind a body. -/
structure Clauses where
  rescues : List Tree := []
  otherwise : Tree := .absent
  ensure : Tree := .absent

/-- Read clauses up to `end`; of several `else` or `ensure` clauses the last one counts. -/
def clausesFrom (r : Rules) : Nat → Clauses → Parse Clauses
  | 0, acc => return acc
  | fuel + 1, acc => do
    let token ← next
    match token.kind with
    | .keyword "rescue" =>
      let clause ← r.rescueClause token.span
      clausesFrom r fuel { acc with rescues := acc.rescues ++ [clause] }
    | .keyword "else" =>
      let stmts ← r.statements Stop.clauseEnd
      clausesFrom r fuel { acc with otherwise := (← Parse.body stmts token.span) }
    | .keyword "ensure" =>
      let stmts ← r.statements Stop.clauseEnd
      clausesFrom r fuel { acc with ensure := (← Parse.body stmts token.span) }
    | .keyword "end" => return acc
    | _ => unexpected token "'end'"

/-- Read a body up to `end`. A body without clauses is returned as it is, unless `wrap` is set. -/
def rescueBody (r : Rules) (start : Span) (wrap : Bool) : Parse Tree := do
  let stmts ← r.statements Stop.clauseEnd
  let body ← Parse.body stmts start
  let clauses ← r.clausesFrom r.fuel {}
  if !wrap && clauses.rescues.isEmpty && clauses.otherwise.isAbsent && clauses.ensure.isAbsent then
    return body
  Build.node .protect (← since start) (body :: clauses.rescues ++ [clauses.otherwise, clauses.ensure])

def braceBody (r : Rules) (start : Span) : Parse Tree := do
  let stmts ← r.statements (Stop.punct "\x7d")
  expectPunct "\x7d"
  Parse.body stmts start

def block (r : Rules) (start : Span) (brace : Bool) : Parse Tree := do
  let (params, body) ← inScope .block do
    let params ← r.blockParameters
    let body ← if brace then r.braceBody start else r.rescueBody start false
    return (params, body)
  Build.node .lambda (← since start) [params, body]

/-- Read a lambda behind its arrow: a call of `lambda` with a block. -/
def lambdaLiteral (r : Rules) (start : Span) : Parse Tree := do
  let (params, body) ← inScope .block do
    let params ←
      if ← acceptPunct "(" then r.parenParameters else r.parameters Stop.lambdaBody false
    let body ←
      if ← acceptPunct "\x7b" then r.braceBody start
      else do
        expectKeyword "do"
        r.rescueBody start false
    return (params, body)
  let span ← since start
  let lambda ← Build.node .lambda span [params, body]
  let args ← Build.node .args span []
  Build.node .call span [.name "lambda", args, lambda]

end Rules

end Garnet
