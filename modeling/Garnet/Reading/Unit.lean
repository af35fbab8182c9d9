import Garnet.Reading.Expression

/-!
# Units

A unit is the program of one source text: `parse` gives its tree and the identity that the next node
would get.
-/

namespace Garnet

/-- The rules of the grammar, `fuel` levels deep. -/
def rules : Nat → Rules
  | 0 =>
    { fuel := 0
      expr := fun _ => do Parse.fail .tooDeep (← get).lastSpan
      statements := fun _ => do Parse.fail .tooDeep (← get).lastSpan }
  | fuel + 1 =>
    { fuel := fuel + 1
      expr := fun ctx => (rules fuel).exprFrom ctx fuel {}
      statements := fun stop => (rules fuel).statementsFrom stop fuel }

/-- A program that was read: its tree, and the identity the next node would get. -/
structure Parsed where
  tree : Tree
  nextId : Nat

def ParserState.ofString (source file : String) : ParserState where
  lexer := .ofString source
  nextId := 0
  scopes := [⟨.top, []⟩]
  file := file
  lastSpan := .zero

/-- More levels of nesting than a text can have, and more tokens. -/
def ParserState.bound (s : ParserState) : Nat := 4 * s.lexer.bound + 16

def Parse.program : Parse Tree := do
  let s ← get
  let stmts ← (rules s.bound).statements Stop.eof
  let eof ← next
  Build.node .seq ⟨s.lexer.cursor.pos, eof.span.stop⟩ stmts

/-- Read the program of a source text; `file` is the name it sees itself under. -/
def parse (source : String) (file : String := "-") : Except ParseError Parsed :=
  match Parse.program (.ofString source file) with
  | .ok tree s => .ok ⟨tree, s.nextId⟩
  | .error e _ => .error e

end Garnet
