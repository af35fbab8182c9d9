import Garnet.Reading.Body

/-!
# Definitions

Methods, classes, modules, bodies on one object, and other names for methods.
-/

namespace Garnet

/-! ### Statements -/

namespace Rules

open Parse

/-- Read a target behind the first one: a value to assign to, or several in parentheses. -/
def nestedTarget (r : Rules) : Nat → Parse Tree
  | 0 => do fail .tooDeep (← get).lastSpan
  | fuel + 1 => do
    let start := (← peek).span
    if ← acceptPunct "(" then
      let items ← commaSeparated (nestedTarget r fuel) r.fuel
      expectPunct ")"
      Build.node .destruct (← since start) items
    else target (← r.expr { stopAtAssign := true })

/-- Read further targets behind a comma; a comma may stand right before the equals sign. -/
def targetsFrom (r : Rules) : Nat → Parse (List Tree)
  | 0 => return []
  | fuel + 1 => do
    if ← acceptPunct "," then
      if ← atPunct "=" then return []
      let e ← r.nestedTarget r.fuel
      return e :: (← targetsFrom r fuel)
    return []

def moreValues (r : Rules) : Parse (List Tree) := do
  if ← acceptPunct "," then r.exprs {} else return []

/-- Read an expression or an assignment to several targets. Several values for one target make an
array. -/
def simpleStatement (r : Rules) : Parse Tree := do
  let start := (← peek).span
  let first ← r.expr {}
  if !(← atPunct ",") then return first
  match first with
  | .node .assign span id children =>
    let n : Node := ⟨.assign, span, id, children⟩
    let items ← r.moreValues
    let array ← Build.node .array (← since start) (n.child 1 :: items)
    return n.rebuild [n.child 0, array]
  | _ =>
    let first ← target first
    let targets ← r.targetsFrom r.fuel
    expectPunct "="
    let value ← r.expr {}
    let values ← r.moreValues
    let span ← since start
    let right ←
      if values.isEmpty && !value.is .splat then pure value
      else Build.node .array span (value :: values)
    let left ← Build.node .array span (first :: targets)
    Build.node .multiAssign span [left, right]

/-- A statement with the modifier `word`, read at `at`, and its operand. -/
def modified (word : String) (mark span : Span) (stmt operand : Tree) : Parse Tree := do
  match word with
  | "if" => Build.node .cond span [operand, stmt, .absent]
  | "unless" => Build.node .cond span [operand, .absent, stmt]
  | "rescue" =>
    let classes ← Build.node .array mark []
    let clause ← Build.node .rescue mark [classes, .absent, operand]
    Build.node .protect span [stmt, clause, .absent, .absent]
  | _ =>
    let test ← if word == "until" then Build.node .not span [operand] else pure operand
    Build.node (if stmt.is .protect then .doLoop else .loop) span [test, stmt]

def modifiersFrom (r : Rules) (start : Span) : Nat → Tree → Parse Tree
  | 0, stmt => return stmt
  | fuel + 1, stmt => do
    let token ← next
    match token.kind with
    | .keyword word =>
      if ["if", "unless", "while", "until", "rescue"].contains word then
        let operand ← r.expr {}
        let stmt ← modified word token.span (← since start) stmt operand
        modifiersFrom r start fuel stmt
      else
        pushBack token
        return stmt
    | _ =>
      pushBack token
      return stmt

def statement (r : Rules) : Parse Tree := do
  let start := (← peek).span
  let stmt ← r.simpleStatement
  r.modifiersFrom start r.fuel stmt

/-- Read statements up to a token that ends them, which is left in place. -/
def statementsFrom (r : Rules) (stop : TokenKind → Bool) : Nat → Parse (List Tree)
  | 0 => return []
  | fuel + 1 => do
    r.skipTerms
    let kind ← peekKind
    if stop kind || kind == .eof then return []
    let stmt ← r.statement
    let token ← next
    if token.kind == .newline || token.kind == .punct ";" then
      return stmt :: (← statementsFrom r stop fuel)
    else if stop token.kind || token.kind == .eof then
      pushBack token
      return [stmt]
    else unexpected token "end of statement"

end Rules

/-- The operators that can be defined as methods. -/
def isOperatorMethod (p : String) : Bool :=
  ["+", "-", "*", "/", "%", "**", "==", "!=", "===", "=~", "!~", "<=>", "<", "<=", ">", ">=", "<<",
    ">>", "&", "|", "^", "~", "!"].contains p

namespace Rules

open Parse

/-- The name of a method being defined, which starts with `token`. -/
def methodName (token : Token) : Parse String := do
  match token.kind with
  | .ident n | .const n => return n
  | .keyword w => return w
  | .punct "[" =>
    expectPunct "]"
    let after ← peek
    if after.kind == .punct "=" && !after.spaceBefore then
      let _ ← next
      return "[]="
    return "[]"
  | .punct p => if isOperatorMethod p then return p else unexpected token "method name"
  | _ => unexpected token "method name"

/-- The receiver that `token` names when a dot follows it. -/
def receiver? (token : Token) : Parse (Option Tree) := do
  let named : Option Tree :=
    match token.kind with
    | .keyword "self" => some (.name "self")
    | .const c | .ident c => some (.name c)
    | _ => none
  match named with
  | some e => if ← atPunct "." then return some e else return none
  | none => return none

/-- Read the equals sign that belongs to the name of a setter. -/
def setterName (name : String) : Parse String := do
  let after ← peek
  let marked := name.toList.getLast?.any fun c => c == '=' || c == '?' || c == '!'
  if after.kind == .punct "=" && !after.spaceBefore && !marked then
    let _ ← next
    return name ++ "="
  return name

/-- Read a method behind `def`. Behind an equals sign its body is one statement. -/
def methodDefinition (r : Rules) (start : Span) : Parse Tree := do
  let token ← next
  let receiver ← receiver? token
  let name ← match receiver with
    | some _ => do
      let _ ← next
      methodName (← next)
    | none => methodName token
  let name ← setterName name
  let (params, body) ← inScope .method do
    let params ←
      if ← acceptPunct "(" then r.parenParameters else r.parameters Stop.line false
    let body ←
      if ← acceptPunct "=" then do
        r.skipNewlines
        r.statement
      else r.rescueBody start false
    return (params, body)
  let span ← since start
  match receiver with
  | some e => Build.node .singletonMethod span [e, .name name, params, body]
  | none => Build.node .method span [.name name, params, body]

def pathFrom (start : Span) : Nat → Tree → Parse Tree
  | 0, path => return path
  | fuel + 1, path => do
    if ← acceptPunct "::" then
      let inner ← next
      match inner.kind with
      | .const c =>
        let path ← Build.node .path (← since start) [path, .name c]
        pathFrom start fuel path
      | _ => unexpected inner "constant name"
    else return path

def constantPath (r : Rules) : Parse Tree := do
  let token ← next
  match token.kind with
  | .const c => pathFrom token.span r.fuel (.name c)
  | .punct "::" =>
    let inner ← next
    match inner.kind with
    | .const c =>
      let path ← Build.node .topPath (← since token.span) [.name c]
      pathFrom token.span r.fuel path
    | _ => unexpected inner "constant name"
  | _ => unexpected token "class or module name"

/-- Read a class behind `class`. -/
def classDefinition (r : Rules) (start : Span) : Parse Tree := do
  if ← acceptPunct "<<" then
    let object ← r.expr {}
    let body ← inScope .classBody (r.rescueBody start false)
    Build.node .singletonClass (← since start) [object, body]
  else
    let path ← r.constantPath
    let superclass ← if ← acceptPunct "<" then r.expr {} else pure .absent
    let body ← inScope .classBody (r.rescueBody start false)
    Build.node .classBody (← since start) [path, superclass, body]

/-- Read a module behind `module`. -/
def moduleDefinition (r : Rules) (start : Span) : Parse Tree := do
  let path ← r.constantPath
  let body ← inScope .classBody (r.rescueBody start false)
  Build.node .moduleBody (← since start) [path, body]

/-- Read the name of a method or of a global variable. -/
def aliasName : Parse String := do
  let token ← next
  match token.kind with
  | .ident s | .const s | .gvar s | .symbol s => return s
  | .keyword w => return w
  | .punct p => if isOperatorMethod p then return p else unexpected token "method name"
  | _ => unexpected token "method name"

/-- Read another name for a method behind `alias`. -/
def aliasDefinition (start : Span) : Parse Tree := do
  let new ← aliasName
  let old ← aliasName
  Build.node .aliasing (← since start) [.sym new, .sym old]

end Rules

end Garnet
