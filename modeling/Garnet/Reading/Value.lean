import Garnet.Reading.Argument
import Garnet.Reading.Control
import Garnet.Reading.Definition

/-!
# Values

An operand of an expression: a literal, a name, a call, a bracketed form or a control structure,
followed by calls, indexes and blocks, which bind tighter than any operator.
-/

namespace Garnet

def Tree.takesBlock : Tree → Bool
  | .node tag _ _ children =>
    [Tag.call, .send, .safeSend, .super, .implicitSuper].contains tag
      && children.getLast?.any fun b => b.isAbsent || b.is .blockPass
  | _ => false

def Tree.hasSafeLink : Tree → Bool
  | .node .safeSend _ _ _ => true
  | .node .send _ _ (receiver :: _) => receiver.hasSafeLink
  | _ => false

namespace Rules

open Parse

/-! ### Code in strings -/

/-- Read the code of an interpolated string, which stands at `pos`, with the local variables that are
known here. -/
def embedded (r : Rules) (source : String) (pos : Pos) : Parse Tree := do
  let outer ← get
  set { outer with lexer := .ofString source (some pos), lastSpan := .point pos }
  let stmts ← r.statements Stop.eof
  let inner ← get
  set { inner with lexer := outer.lexer, lastSpan := outer.lastSpan }
  Parse.body stmts ⟨pos, inner.lastSpan.stop⟩

def interpolation (r : Rules) (parts : List StrPart) (span : Span) : Parse Tree := do
  let children ← parts.mapM fun part =>
    match part with
    | .lit bytes => pure (.str bytes)
    | .code source pos => r.embedded source pos
  Build.node .interp span children

/-! ### Calls -/

/-- A call without a receiver. In the body of a class, `include` with a constant is an inclusion. -/
def callNode (name : String) (arguments : Arguments) (start : Span) : Parse Tree := do
  let span ← since start
  let isInclusion : Bool :=
    name == "include" && (← get).inClassBody && arguments.block.isAbsent
      && match arguments.items with
        | [.name n] => VarName.isConstant n
        | [e] => e.is .path || e.is .topPath
        | _ => false
  if isInclusion then Build.node .inclusion span arguments.items
  else
    let args ← Build.node .args span arguments.items
    Build.node .call span [.name name, args, arguments.block]

def sendNode (receiver : Tree) (name : String) (items : List Tree) (span : Span) : Parse Tree :=
  Build.send span receiver name items

/-- Read what a bare name starts: a variable, or a call with or without arguments. -/
def identifier (r : Rules) (name : String) (span : Span) (ctx : ExprContext) : Parse Tree := do
  if ← atTightParen then
    let _ ← next
    callNode name (← r.parenArguments) span
  else if (← get).isLocal name then return .name name
  else if ← startsArgument then callNode name (← r.commandArguments ctx) span
  else callNode name ⟨[], .absent⟩ span

def finishSend (r : Rules) (receiver : Tree) (name : String) (safe : Bool) (ctx : ExprContext) :
    Parse Tree := do
  let start := receiver.spanOr (← get).lastSpan
  let tight ← atTightParen
  let parens ← if tight then pure true else if name == "call" then atPunct "(" else pure false
  let arguments ←
    if parens then do
      let _ ← next
      r.parenArguments
    else if ← startsArgument then r.commandArguments ctx
    else pure ⟨[], .absent⟩
  let span ← since start
  let args ← Build.node .args span arguments.items
  Build.node (if safe then .safeSend else .send) span
    [receiver, .name name, args, arguments.block]

def dotCall (r : Rules) (receiver : Tree) (safe : Bool) (ctx : ExprContext) : Parse Tree := do
  let token ← next
  let name ← match token.kind with
    | .ident n | .const n => pure n
    | .keyword w => pure w
    | .punct "(" => do
      pushBack token
      pure "call"
    | .punct "[" => do
      expectPunct "]"
      pure "[]"
    | .punct p => if isOperatorMethod p then pure p else unexpected token "method name"
    | _ => unexpected token "method name"
  r.finishSend receiver name safe ctx

def pathMember (r : Rules) (receiver : Tree) (start : Span) (ctx : ExprContext) : Parse Tree := do
  let token ← next
  match token.kind with
  | .const c =>
    if ← atTightParen then r.finishSend receiver c false ctx
    else Build.node .path ((receiver.spanOr start).merge token.span) [receiver, .name c]
  | .ident name => r.finishSend receiver name false ctx
  | _ => unexpected token "constant or method name"

def attachBlock (call block : Tree) : Parse Tree := do
  match call with
  | .node tag span id children =>
    if children.getLast?.any (·.is .blockPass) then fail .twoBlocks span
    return .node tag span id (children.dropLast ++ [block])
  | _ => return call

/-- Mark a chain of calls in which a safe call is not the last one: when its receiver is `nil`, the
calls behind it are skipped too. -/
def closeSafeChain (value : Tree) : Parse Tree := do
  match value with
  | .node .send span _ (receiver :: _) | .node .safeSend span _ (receiver :: _) =>
    if receiver.hasSafeLink then Build.node .safeChain span [value] else return value
  | _ => return value

/-- Read calls, indexes and blocks behind a value that starts at `start`. -/
def postfixFrom (r : Rules) (start : Span) (ctx : ExprContext) : Nat → Tree → Parse Tree
  | 0, _ => fail .tooDeep start
  | fuel + 1, value => do
    let token ← next
    match token.kind with
    | .punct "." =>
      let value ← r.dotCall value false ctx
      postfixFrom r start ctx fuel value
    | .punct "&." =>
      let value ← r.dotCall value true ctx
      postfixFrom r start ctx fuel value
    | .punct "::" =>
      let value ← r.pathMember value start ctx
      postfixFrom r start ctx fuel value
    | .punct "[" =>
      let items ← r.listItems
      let span := (value.spanOr start).merge (← get).lastSpan
      let value ← sendNode value "[]" items span
      postfixFrom r start ctx fuel value
    | kind =>
      let brace := kind == .punct "\x7b"
      if value.takesBlock && (brace || (kind == .keyword "do" && !ctx.noDo)) then
        let block ← r.block token.span brace
        let value ← attachBlock value block
        postfixFrom r start ctx fuel value
      else
        pushBack token
        closeSafeChain value

/-! ### Reserved words as values -/

def endsJump (kind : TokenKind) : Bool :=
  match kind with
  | .newline | .eof => true
  | .punct p => [";", "\x7d", ")", "]", ":"].contains p
  | .keyword w =>
    ["end", "if", "unless", "while", "until", "rescue", "else", "elsif", "ensure", "when", "then",
      "do"].contains w
  | _ => false

/-- Read the value of `return`, `break` or `next`; several values make an array. -/
def jump (r : Rules) (tag : Tag) (start : Span) (ctx : ExprContext) : Parse Tree := do
  let value ←
    if endsJump (← peekKind) then pure .absent
    else do
      match ← r.exprs ctx with
      | [e] => pure e
      | items => Build.node .array (← since start) items
  Build.node tag (← since start) [value]

/-- Read what a reserved word starts, if it starts a value. -/
def keywordValue (r : Rules) (word : String) (span : Span) (ctx : ExprContext) :
    Parse (Option Tree) := do
  match word with
  | "nil" | "true" | "false" | "self" => return some (.name word)
  | "__FILE__" => return some (.text (← get).file)
  | "__LINE__" => return some (.int span.start.line)
  | "if" => return some (← r.conditional false r.fuel span)
  | "unless" => return some (← r.conditional true r.fuel span)
  | "while" => return some (← r.loop span false)
  | "until" => return some (← r.loop span true)
  | "case" => return some (← r.choice span)
  | "for" => return some (← r.forLoop span)
  | "begin" => return some (← r.rescueBody span true)
  | "def" => return some (← r.methodDefinition span)
  | "class" => return some (← r.classDefinition span)
  | "module" => return some (← r.moduleDefinition span)
  | "alias" => return some (← aliasDefinition span)
  | "yield" =>
    let arguments ← r.optionalArguments ctx
    let span ← since span
    let args ← Build.node .args span arguments.items
    return some (← Build.node .yield span [args])
  | "super" =>
    let explicit ← if ← atTightParen then pure true else startsArgument
    let arguments ← r.optionalArguments ctx
    let span ← since span
    if explicit then
      let args ← Build.node .args span arguments.items
      return some (← Build.node .super span [args, arguments.block])
    else return some (← Build.node .implicitSuper span [arguments.block])
  | "return" => return some (← r.jump .ret span ctx)
  | "break" => return some (← r.jump .leave span ctx)
  | "next" => return some (← r.jump .proceed span ctx)
  | "redo" => return some (← Build.node .redo span [])
  | "retry" => return some (← Build.node .retry span [])
  | "undef" => fail .undef span
  | _ => return none

/-! ### Values -/

def parenthesized (r : Rules) (start : Span) : Parse Tree := do
  let stmts ← r.statements (Stop.punct ")")
  expectPunct ")"
  match stmts with
  | [] => return .nil
  | [e] => return e
  | _ => Build.node .seq (← since start) stmts

/-- Read the value that starts with `token`, without what may follow it. -/
def primary (r : Rules) (token : Token) (ctx : ExprContext) : Parse (Option Tree) := do
  let span := token.span
  match token.kind with
  | .integer n => return some (.int n)
  | .bigInteger s => return some (.big s)
  | .float s => return some (.float s)
  | .str bytes => return some (.str bytes)
  | .interp parts => return some (← r.interpolation parts span)
  | .symbol s => return some (.sym s)
  | .words ws => return some (← Build.node .array span (ws.map .text))
  | .symbols ws => return some (← Build.node .array span (ws.map .sym))
  | .regex source flags => return some (← Build.node .regex span [.text source, .text flags])
  | .ivar n | .cvar n | .gvar n => return some (.name n)
  | .const c =>
    if ← atTightParen then
      let _ ← next
      return some (← callNode c (← r.parenArguments) span)
    return some (.name c)
  | .ident name => return some (← r.identifier name span ctx)
  | .keyword word => r.keywordValue word span ctx
  | .punct "(" => return some (← r.parenthesized span)
  | .punct "[" =>
    let items ← r.listItems
    return some (← Build.node .array (← since span) items)
  | .punct "\x7b" => return some (← r.hashLiteral span)
  | .punct "->" => return some (← r.lambdaLiteral span)
  | .punct "::" =>
    let inner ← next
    match inner.kind with
    | .const c => return some (← Build.node .topPath (← since span) [.name c])
    | _ => unexpected inner "constant name"
  | _ => return none

/-- Read a value that starts with `token`; a token that starts none is handed back. -/
def value? (r : Rules) (token : Token) (ctx : ExprContext) : Parse (Option Tree) := do
  match ← r.primary token ctx with
  | some e => return some (← r.postfixFrom token.span ctx r.fuel e)
  | none =>
    pushBack token
    return none

end Rules

end Garnet
