import Garnet.Operator
import Garnet.Token.Stream
import Garnet.Tree.Build
import Garnet.Tree.Printer

/-!
# The state of reading a program

A program is read from a stream of tokens with one token of lookahead. Along the way the local
variables seen so far are kept, since a bare name is a variable once it has been assigned and a
call before.
-/

namespace Garnet

/-! ### Faults -/

/-- The operator and the values at hand when an expression could not be put together. -/
structure StackDump where
  operator : String
  priority : Nat
  values : List String
  right : Option String
deriving DecidableEq, Repr

/-- Why a program cannot be read. -/
inductive ParseCause where
  | lexical (cause : LexCause)
  | expected (wanted : String) (found : TokenKind)
  | assignToExpression
  | assignToName (name : String)
  | assignToLiteral
  | patternMatching
  | namelessBlockParameter
  | keywordSplat
  | undef
  | missingValue
  | missingColon
  | unreduced
  | notBinary (symbol : String)
  | twoBlocks
  | tooDeep
deriving DecidableEq, Repr

/-- How a message names a token it did not expect. -/
def ParseCause.found : TokenKind → String
  | .eof => TokenKind.eof.name
  | .newline => TokenKind.newline.name
  | kind => "'" ++ kind.text ++ "'"

def ParseCause.message : ParseCause → String
  | .lexical cause => cause.message
  | .expected wanted kind => "expected " ++ wanted ++ ", found " ++ found kind
  | .assignToExpression => "cannot assign to this expression"
  | .assignToName name => "cannot assign to " ++ name
  | .assignToLiteral => "cannot assign to a literal"
  | .patternMatching => "pattern matching with 'case ... in' is not supported"
  | .namelessBlockParameter => "block parameter needs a name"
  | .keywordSplat => "keyword splat parameters are not supported"
  | .undef => "'undef' is not supported"
  | .missingValue => "Missing value in expression"
  | .missingColon => "Missing ':' in ternary expression"
  | .unreduced => "unreduced values in expression"
  | .notBinary symbol => "'" ++ symbol ++ "' is not a binary operator"
  | .twoBlocks => "both block argument and literal block given"
  | .tooDeep => "nesting too deep"

/-- A fault in a program, and where it is. -/
structure ParseError where
  cause : ParseCause
  span : Span
  stack : Option StackDump := none
deriving DecidableEq, Repr

namespace ParseError

def ofLexError (e : LexError) : ParseError := { cause := .lexical e.cause, span := e.span }

/-- Whether the fault lies in the text of a token. -/
def isLexical (e : ParseError) : Bool :=
  match e.cause with
  | .lexical _ => true
  | _ => false

def message (e : ParseError) : String := e.cause.message

/-- The lines behind the message that show the operator and the values at hand. -/
def detail (e : ParseError) : String :=
  match e.stack with
  | none => ""
  | some d =>
    "\n  op: " ++ d.operator ++ " (priority " ++ Numeral.decimal d.priority ++ ")\n  vstack: ["
      ++ ", ".intercalate d.values ++ "]\n  rightv: " ++ d.right.getD "nil"

def text (e : ParseError) : String :=
  (if e.isLexical then "lex" else "parse") ++ " error at " ++ e.span.text ++ ": " ++ e.message
    ++ e.detail

end ParseError

/-! ### State -/

/-- What opened a scope of local variables. -/
inductive ScopeKind where
  | top
  | classBody
  | method
  | block
deriving DecidableEq, Repr

/-- The local variables of one scope. A block sees those around it; all other scopes start afresh. -/
structure LocalScope where
  kind : ScopeKind
  vars : List String
deriving DecidableEq, Repr

/-- A program while it is read. -/
structure ParserState where
  lexer : Lexer
  /-- The identity of the next node. -/
  nextId : Nat
  /-- The open scopes, innermost first. -/
  scopes : List LocalScope
  /-- The name of the file, for the program to see. -/
  file : String
  /-- The span of the token read last. -/
  lastSpan : Span

abbrev Parse := EStateM ParseError ParserState

instance : Fresh Parse where
  fresh := modifyGet fun s => (s.nextId, { s with nextId := s.nextId + 1 })

namespace ParserState

/-- Whether `name` is a local variable in scopes given innermost first. -/
def isLocalIn (name : String) : List LocalScope → Bool
  | [] => false
  | scope :: outer => scope.vars.contains name || (scope.kind == .block && isLocalIn name outer)

/-- Whether `name` is a local variable here. -/
def isLocal (s : ParserState) (name : String) : Bool := isLocalIn name s.scopes

def inClassBody (s : ParserState) : Bool := s.scopes.head?.any (·.kind == .classBody)

def isVariableName (name : String) : Bool :=
  name.toList.head?.any (fun c => c.isLower || c == '_' || 128 ≤ c.toNat)
    && !name.toList.getLast?.any (fun c => c == '?' || c == '!')

/-- Record `name` as a local variable of the innermost scope. -/
def declare (s : ParserState) (name : String) : ParserState :=
  match s.scopes with
  | scope :: outer =>
    if isVariableName name && !scope.vars.contains name then
      { s with scopes := { scope with vars := name :: scope.vars } :: outer }
    else s
  | [] => s

end ParserState

namespace Parse

/-! ### Tokens -/

/-- The next token. A local variable among them ends an expression, whatever follows it. -/
def next : Parse Token := fun s =>
  match Lexer.next s.lexer with
  | .error e l => .error (.ofLexError e) { s with lexer := l }
  | .ok token l =>
    let l :=
      match token.kind with
      | .ident name => if s.isLocal name then l.markLocal token.span else l
      | _ => l
    .ok token { s with lexer := l, lastSpan := token.span }

def peek : Parse Token := fun s =>
  match Lexer.peek s.lexer with
  | .error e l => .error (.ofLexError e) { s with lexer := l }
  | .ok token l => .ok token { s with lexer := l }

def peekKind : Parse TokenKind := return (← peek).kind

def pushBack (token : Token) : Parse Unit := modify fun s => { s with lexer := s.lexer.pushBack token }

def atPunct (p : String) : Parse Bool := return (← peekKind) == .punct p

/-- An opening parenthesis with nothing before it. -/
def atTightParen : Parse Bool := do
  let token ← peek
  return token.kind == .punct "(" && !token.spaceBefore

def accept (kind : TokenKind) : Parse Bool := do
  if (← peekKind) == kind then
    let _ ← next
    return true
  return false

def acceptPunct (p : String) : Parse Bool := accept (.punct p)

def acceptKeyword (w : String) : Parse Bool := accept (.keyword w)

def fail {α : Type} (cause : ParseCause) (span : Span) : Parse α := throw { cause, span }

/-- Give up on a token that is not what is wanted. -/
def unexpected {α : Type} (token : Token) (wanted : String) : Parse α :=
  fail (.expected wanted token.kind) token.span

def expectPunct (p : String) : Parse Unit := do
  let token ← next
  if token.kind != .punct p then unexpected token ("'" ++ p ++ "'")

def expectKeyword (w : String) : Parse Unit := do
  let token ← next
  if token.kind != .keyword w then unexpected token ("'" ++ w ++ "'")

/-- Read tokens of the given kinds, `fuel` of them at most. -/
def skipKinds (kinds : List TokenKind) : Nat → Parse Unit
  | 0 => return
  | fuel + 1 => do
    if kinds.contains (← peekKind) then
      let _ ← next
      skipKinds kinds fuel

/-! ### Nodes -/

/-- The stretch from `start` to the token read last. -/
def since (start : Span) : Parse Span := return start.merge (← get).lastSpan

def body (stmts : List Tree) (span : Span) : Parse Tree :=
  match stmts with
  | [] => return .absent
  | [e] => return e
  | _ => Build.node .seq span stmts

/-! ### Local variables -/

def declare (name : String) : Parse Unit := modify (·.declare name)

def inScope {α : Type} (kind : ScopeKind) (p : Parse α) : Parse α := do
  modify fun s => { s with scopes := ⟨kind, []⟩ :: s.scopes }
  let a ← p
  modify fun s => { s with scopes := s.scopes.drop 1 }
  return a

/-- What was read as a value, as a target of assignment. A bare name that was read as a call becomes
a variable here. -/
def target (e : Tree) : Parse Tree := do
  let span := e.spanOr (← get).lastSpan
  match e with
  | .name name =>
    if VarName.isPseudo name then fail (.assignToName name) span
    declare name
    return e
  | .node tag s id children =>
    let n : Node := ⟨tag, s, id, children⟩
    match tag, children with
    | .call, .name name :: _ =>
      if (n.child 1).children.isEmpty && (n.child 2).isAbsent then
        declare name
        return .name name
      else fail .assignToExpression span
    | .send, _ | .safeSend, _ =>
      if (n.child 3).isAbsent
          && ((n.child 2).children.isEmpty || (n.child 1).name? == some "[]") then return e
      else fail .assignToExpression span
    | .path, _ | .topPath, _ => return e
    | .safeChain, inner :: _ | .splat, inner :: _ => return n.rebuild [← target inner]
    | .safeChain, [] | .splat, [] => fail .assignToLiteral (← get).lastSpan
    | _, _ => fail .assignToExpression span
  | _ => fail .assignToLiteral span

end Parse

end Garnet
