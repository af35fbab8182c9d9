/-!
# Operators

The table of operator priorities, each with the side to which its operators group. The higher the
priority, the tighter an operator binds.

* 95, right: `!` `~` unary `+` `defined?`
* 90, right: `**`
* 85, right: unary `-`
* 80, left: `*` `/` `%`
* 75, left: `+` `-`
* 70, left: `<<` `>>`
* 65, left: `&`
* 60, left: `|` `^`
* 55, left: `<` `<=` `>` `>=`
* 50, left: `<=>` `==` `===` `!=` `=~` `!~`
* 45, left: `&&`
* 40, left: `||`
* 35, left: `..` `...`
* 30, right: `? :`
* 20, right: `=` and operator assignment
* 15, right: `not`
* 10, left: `and` `or`
* 5, right: splat `*`, `**`, block pass `&`
-/

namespace Garnet

/-- The side towards which operators of one priority group. -/
inductive Assoc where
  | left
  | right
deriving DecidableEq, Repr

/-- What an operator builds from its operands. -/
inductive OpKind where
  /-- A call of the method named like the operator. -/
  | method
  | and
  | or
  | not
  | assign
  /-- Assignment of the result of the operator `op`. -/
  | opAssign (op : String)
  | range
  | exclusiveRange
  /-- A condition and its first branch, before the colon. -/
  | ternary
  /-- A condition and both branches. -/
  | ternaryElse
  | defined
  | splat
  | doubleSplat
  | blockPass
  | negate
  | plus
deriving DecidableEq, Repr

/-- An operator. -/
structure Operator where
  symbol : String
  priority : Nat
  assoc : Assoc
  /-- It stands before its one operand. -/
  unary : Bool
  kind : OpKind
deriving DecidableEq, Repr

namespace Operator

def arity (o : Operator) : Nat := if o.kind = .ternaryElse then 3 else if o.unary then 1 else 2

/-- Plain assignment, or assignment of an operator's result. -/
def isAssignment (o : Operator) : Bool :=
  match o.kind with
  | .assign | .opAssign _ => true
  | _ => false

/-- Whether `o`, read earlier, takes its operands before `incoming` does. An assignment binds to the
value right before it whatever was read before, and a condition waits for its colon. -/
def reducesBefore (o incoming : Operator) : Bool :=
  !incoming.unary && !incoming.isAssignment && o.kind != .ternary
    && (incoming.priority < o.priority
      || (o.priority == incoming.priority && incoming.assoc == .left))

private def left (symbol : String) (priority : Nat) (kind : OpKind) : Operator :=
  ⟨symbol, priority, .left, false, kind⟩

private def right (symbol : String) (priority : Nat) (kind : OpKind) : Operator :=
  ⟨symbol, priority, .right, false, kind⟩

private def front (symbol : String) (priority : Nat) (kind : OpKind) : Operator :=
  ⟨symbol, priority, .right, true, kind⟩

def binaryTable : List Operator :=
  [right "**" 90 .method,
    left "*" 80 .method, left "/" 80 .method, left "%" 80 .method,
    left "+" 75 .method, left "-" 75 .method,
    left "<<" 70 .method, left ">>" 70 .method,
    left "&" 65 .method,
    left "|" 60 .method, left "^" 60 .method,
    left "<" 55 .method, left "<=" 55 .method, left ">" 55 .method, left ">=" 55 .method,
    left "<=>" 50 .method, left "==" 50 .method, left "===" 50 .method, left "!=" 50 .method,
    left "=~" 50 .method, left "!~" 50 .method,
    left "&&" 45 .and,
    left "||" 40 .or,
    left ".." 35 .range, left "..." 35 .exclusiveRange,
    right "?" 30 .ternary, right ":" 30 .ternaryElse,
    right "=" 20 .assign,
    right "+=" 20 (.opAssign "+"), right "-=" 20 (.opAssign "-"), right "*=" 20 (.opAssign "*"),
    right "/=" 20 (.opAssign "/"), right "%=" 20 (.opAssign "%"), right "**=" 20 (.opAssign "**"),
    right "<<=" 20 (.opAssign "<<"), right ">>=" 20 (.opAssign ">>"),
    right "|=" 20 (.opAssign "|"), right "&=" 20 (.opAssign "&"), right "^=" 20 (.opAssign "^"),
    right "||=" 20 (.opAssign "||"), right "&&=" 20 (.opAssign "&&"),
    left "and" 10 .and, left "or" 10 .or]

def unaryTable : List Operator :=
  [front "!" 95 .not, front "~" 95 .method, front "+" 95 .plus, front "defined?" 95 .defined,
    front "-" 85 .negate, front "not" 15 .not,
    front "*" 5 .splat, front "**" 5 .doubleSplat, front "&" 5 .blockPass]

/-- The operator between operands that is written `symbol`. -/
def binary? (symbol : String) : Option Operator := binaryTable.find? (·.symbol == symbol)

/-- The operator before an operand that is written `symbol`. -/
def unary? (symbol : String) : Option Operator := unaryTable.find? (·.symbol == symbol)

end Operator

end Garnet
