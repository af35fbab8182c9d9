import Garnet.Reading.Value

/-!
# Expressions

An expression is read from left to right with a stack of values and a stack of operators. Operands
and operators alternate; before an operator is put on its stack, those there that bind tighter take
their operands. What is neither ends the expression, and the operators left take theirs.
-/

namespace Garnet

/-- An operator with its place. -/
structure PlacedOperator where
  op : Operator
  span : Span

/-- The values and operators of an expression that is being read, last ones first. -/
structure ExprStack where
  values : List Tree := []
  ops : List PlacedOperator := []

/-- The operator at hand and the values, first one first. -/
def ExprStack.dump (op : Operator) (values : List Tree) (right : Option Tree) : StackDump where
  operator := op.symbol
  priority := op.priority
  values := values.reverse.map Tree.print
  right := right.map Tree.print

/-- The operator before an operand that a token is. -/
def TokenKind.unaryOperator? : TokenKind → Option Operator
  | .punct p =>
    if ["!", "~", "-", "+", "*", "**", "&"].contains p then Operator.unary? p else none
  | .keyword "not" => Operator.unary? "not"
  | .keyword "defined?" => Operator.unary? "defined?"
  | _ => none

/-- The operator between operands that a token is in a place. -/
def TokenKind.binaryOperator? (kind : TokenKind) (ctx : ExprContext) : Option Operator :=
  let symbol : Option String :=
    match kind with
    | .punct p => some p
    | .keyword "and" => some "and"
    | .keyword "or" => some "or"
    | _ => none
  (symbol.bind Operator.binary?).filter fun op =>
    !(ctx.noPipe && op.symbol == "|") && !(ctx.stopAtAssign && op.kind == .assign)

def negateNumeral (s : String) : String :=
  match s.toList with
  | '-' :: rest => String.ofList rest
  | _ => "-" ++ s

namespace Parse

/-- The negation of a literal is a literal; any other value is sent `-@`. -/
def negation (value : Tree) (span : Span) : Parse Tree :=
  match value with
  | .int n =>
    return if Numeral.fitsWord (-n) then .int (-n) else .big (negateNumeral (Numeral.decimal n))
  | .big s => return .big (negateNumeral s)
  | .float s => return .float (negateNumeral s)
  | e => Build.send span e "-@" []

/-- What an operator before an operand builds. -/
def unary (op : Operator) (mark : Span) (value : Tree) : Parse Tree :=
  let span := value.span?.elim mark mark.merge
  match op.kind with
  | .not => Build.node .not span [value]
  | .negate => negation value span
  | .plus =>
    match value with
    | .int _ | .big _ | .float _ => return value
    | e => Build.send span e "+@" []
  | .defined => Build.node .defined span [value]
  | .splat => Build.node .splat span [value]
  | .doubleSplat => Build.node .doubleSplat span [value]
  | .blockPass => Build.node .blockPass span [value]
  | _ => Build.send span value op.symbol []

/-- What an operator between two operands builds. -/
def binary (op : Operator) (mark : Span) (left right : Tree) : Parse Tree :=
  let span :=
    match left.span?, right.span? with
    | some l, some r => l.merge r
    | some l, none => l.merge mark
    | none, some r => mark.merge r
    | none, none => mark
  match op.kind with
  | .method => Build.send span left op.symbol [right]
  | .and => Build.node .and span [left, right]
  | .or => Build.node .or span [left, right]
  | .range => Build.node .range span [left, right]
  | .exclusiveRange => Build.node .exclusiveRange span [left, right]
  | .assign => Build.assign left right span
  | .opAssign op => Build.node .opAssign span [left, .name op, right]
  | _ => fail (.notBinary op.symbol) span

def reduce (values : List Tree) (top : PlacedOperator) : Parse (List Tree) := do
  let lacking {α : Type} (cause : ParseCause) : Parse α :=
    throw ⟨cause, top.span, some (ExprStack.dump top.op values values.head?)⟩
  if top.op.kind == .ternary then lacking .missingColon
  match top.op.arity, values with
  | 1, right :: rest => return (← unary top.op top.span right) :: rest
  | 2, right :: left :: rest => return (← binary top.op top.span left right) :: rest
  | 3, no :: yes :: test :: rest =>
    let last := (← get).lastSpan
    let span := test.span?.elim top.span (·.merge last)
    return (← Build.node .cond span [test, yes, no]) :: rest
  | _, _ => lacking .missingValue

/-- Let operators take their operands as long as the last one satisfies `p`. -/
def reduceWhile (p : Operator → Bool) (values : List Tree) :
    List PlacedOperator → Parse ExprStack
  | [] => return ⟨values, []⟩
  | top :: ops => do
    if p top.op then
      let values ← reduce values top
      reduceWhile p values ops
    else return ⟨values, top :: ops⟩

def finish (stack : ExprStack) : Parse Tree := do
  let stack ← reduceWhile (fun _ => true) stack.values stack.ops
  match stack.values with
  | [e] => return e
  | values => fail .unreduced ((values.head?.bind Tree.span?).getD (← get).lastSpan)

def missingOperand (stack : ExprStack) : Parse Tree := do
  let token ← next
  match stack.ops with
  | top :: _ =>
    throw ⟨.missingValue, token.span, some (ExprStack.dump top.op stack.values none)⟩
  | [] => unexpected token "expression"

end Parse

namespace Rules

open Parse

/-- Read an expression that starts with, or goes on with, an operand. A colon replaces the question
mark that it answers; without one it ends the expression. The target of an assignment is a variable
before its value is read. -/
def exprFrom (r : Rules) (ctx : ExprContext) : Nat → ExprStack → Parse Tree
  | 0, _ => do fail .tooDeep (← get).lastSpan
  | fuel + 1, stack => do
    let token ← next
    match token.kind.unaryOperator? with
    | some op => exprFrom r ctx fuel { stack with ops := ⟨op, token.span⟩ :: stack.ops }
    | none =>
      match ← r.value? token ctx with
      | none => missingOperand stack
      | some value =>
        let values := value :: stack.values
        let token ← next
        match token.kind.binaryOperator? ctx with
        | none =>
          pushBack token
          finish ⟨values, stack.ops⟩
        | some op =>
          if op.kind == .ternaryElse then
            if stack.ops.any (·.op.kind == .ternary) then
              let ⟨values, ops⟩ ← reduceWhile (·.kind != .ternary) values stack.ops
              let ops := match ops with
                | top :: rest => { top with op } :: rest
                | [] => []
              exprFrom r ctx fuel ⟨values, ops⟩
            else
              pushBack token
              finish ⟨values, stack.ops⟩
          else if op.isAssignment then
            let value ← target value
            exprFrom r ctx fuel ⟨value :: stack.values, ⟨op, token.span⟩ :: stack.ops⟩
          else
            let ⟨values, ops⟩ ← reduceWhile (·.reducesBefore op) values stack.ops
            exprFrom r ctx fuel ⟨values, ⟨op, token.span⟩ :: ops⟩

end Rules

end Garnet
