import Garnet.Reading.State

/-!
# The rules of the grammar

Statements hold expressions, and expressions in brackets, blocks and definitions hold statements
again. `Rules` is what every other rule is given to read the parts one level further down; the levels
are tied together where statements and expressions are defined. `Rules.fuel` bounds how often a rule
may repeat: more often than a text has tokens is never needed.
-/

namespace Garnet

/-- What is known of the place an expression stands in. -/
structure ExprContext where
  /-- `do` belongs to a construct around the expression. -/
  noDo : Bool := false
  /-- A bar closes the parameters of a block. -/
  noPipe : Bool := false
  /-- An equals sign ends the expression. -/
  stopAtAssign : Bool := false
deriving DecidableEq, Repr

/-- The place of a condition: a `do` behind it opens the body. -/
def ExprContext.condition : ExprContext := { noDo := true }

/-- The two rules that the others are built on, one level of nesting down. -/
structure Rules where
  fuel : Nat
  /-- Read an expression. -/
  expr : ExprContext → Parse Tree
  /-- Read statements up to a token that ends them. -/
  statements : (TokenKind → Bool) → Parse (List Tree)

namespace Rules

def skipNewlines (r : Rules) : Parse Unit := Parse.skipKinds [.newline] r.fuel

def skipTerms (r : Rules) : Parse Unit := Parse.skipKinds [.newline, .punct ";"] r.fuel

/-- Read what `item` reads, again and again, as long as a comma follows. -/
def commaSeparated {α : Type} (item : Parse α) : Nat → Parse (List α)
  | 0 => return []
  | fuel + 1 => do
    let a ← item
    if ← Parse.acceptPunct "," then return a :: (← commaSeparated item fuel)
    return [a]

/-- Read one or more expressions with commas between them. -/
def exprs (r : Rules) (ctx : ExprContext) : Parse (List Tree) := commaSeparated (r.expr ctx) r.fuel

end Rules

/-! ### Where statements end -/

namespace Stop

def eof (k : TokenKind) : Bool := k == .eof

def anyKeyword (words : List String) (k : TokenKind) : Bool :=
  match k with
  | .keyword w => words.contains w
  | _ => false

def punct (p : String) (k : TokenKind) : Bool := k == .punct p

def blockEnd : TokenKind → Bool := anyKeyword ["end"]

def branchEnd : TokenKind → Bool := anyKeyword ["end", "else", "elsif"]

def armEnd : TokenKind → Bool := anyKeyword ["when", "in", "else", "end"]

def clauseEnd : TokenKind → Bool := anyKeyword ["rescue", "else", "ensure", "end"]

/-- What may follow the parameters of a lambda without parentheses. -/
def lambdaBody (k : TokenKind) : Bool := k == .punct "\x7b" || k == .keyword "do"

/-- What may follow the parameters of a method without parentheses. -/
def line (k : TokenKind) : Bool := k == .newline || k == .punct ";" || k == .punct "="

end Stop

end Garnet
