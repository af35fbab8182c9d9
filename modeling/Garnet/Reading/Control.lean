import Garnet.Reading.Body

/-!
# Control structures

Conditions, loops and choices.
-/

namespace Garnet

namespace Rules

open Parse

/-- Read the condition of a branch, and a `then` behind it. -/
def condition (r : Rules) : Parse Tree := do
  let e ← r.expr .condition
  let _ ← acceptKeyword "then"
  return e

/-- Read statements up to `end`. -/
def endedStatements (r : Rules) : Parse (List Tree) := do
  let stmts ← r.statements Stop.blockEnd
  expectKeyword "end"
  return stmts

/-- Read a condition behind `if` or `elsif`, or a negated one behind `unless`. -/
def conditional (r : Rules) (negated : Bool) : Nat → Span → Parse Tree
  | 0, start => fail .tooDeep start
  | fuel + 1, start => do
    let test ← r.condition
    let stmts ← r.statements Stop.branchEnd
    let yes ← Parse.body stmts start
    let token ← next
    let no ← match token.kind with
      | .keyword "elsif" =>
        if negated then unexpected token "'end'" else conditional r false fuel token.span
      | .keyword "else" => do
        let stmts ← r.endedStatements
        Parse.body stmts token.span
      | .keyword "end" => pure .absent
      | _ => unexpected token "'end'"
    let span ← since start
    Build.node .cond span (if negated then [test, no, yes] else [test, yes, no])

/-- Read a loop behind `while`, or a negated one behind `until`. -/
def loop (r : Rules) (start : Span) (negated : Bool) : Parse Tree := do
  let test ← r.expr .condition
  let _ ← acceptKeyword "do"
  let stmts ← r.endedStatements
  let span ← since start
  let test ← if negated then Build.node .not span [test] else pure test
  let body ← Parse.body stmts span
  Build.node .loop span [test, body]

/-- Read a loop over a collection behind `for`. -/
def forLoop (r : Rules) (start : Span) : Parse Tree := do
  let vars ← commaSeparated (do target (← r.expr .condition)) r.fuel
  expectKeyword "in"
  let collection ← r.expr .condition
  let _ ← acceptKeyword "do"
  let stmts ← r.endedStatements
  let span ← since start
  let var ← match vars with
    | [v] => pure v
    | _ => Build.node .array span vars
  let body ← Parse.body stmts span
  Build.node .forLoop span [var, collection, body]

/-- Read the tests and the body of an arm behind `when`. -/
def arm (r : Rules) (start : Span) : Parse Tree := do
  let tests ← commaSeparated (do r.skipNewlines; r.expr .condition) r.fuel
  let _ ← acceptKeyword "then"
  let stmts ← r.statements Stop.armEnd
  let span ← since start
  let tests ← Build.node .array span tests
  let body ← Parse.body stmts span
  Build.node .arm span [tests, body]

/-- Read the arms of a choice, and what follows `else`. -/
def armsFrom (r : Rules) : Nat → Parse (List Tree)
  | 0 => return []
  | fuel + 1 => do
    let token ← next
    match token.kind with
    | .keyword "when" =>
      let a ← r.arm token.span
      return a :: (← armsFrom r fuel)
    | .keyword "in" => fail .patternMatching token.span
    | .keyword "else" =>
      let stmts ← r.endedStatements
      return [← Parse.body stmts token.span]
    | .keyword "end" => return [.absent]
    | _ => unexpected token "'when'"

/-- Read a choice behind `case`. -/
def choice (r : Rules) (start : Span) : Parse Tree := do
  let kind ← peekKind
  let subject ←
    if kind == .newline || kind == .punct ";" then pure .absent else r.expr {}
  r.skipTerms
  let arms ← r.armsFrom r.fuel
  Build.node .select (← since start) (subject :: arms)

end Rules

end Garnet
