import Garnet.Code.Assemble
import Garnet.Program.Transform

/-!
# Sessions

A session compiles units into one text for the assembler, or shows an intermediate form of them.
-/

namespace Garnet

/-- An intermediate form of a program. -/
inductive DumpMode where
  | tokens
  | ast
  | transformed
deriving DecidableEq, Repr

/-- How to compile. -/
structure CompileOptions where
  /-- Replace calls on literals by their values. -/
  folding : Bool := true
  /-- What to show in place of the code. -/
  dump : Option DumpMode := none

/-- A source text and its name. -/
structure SourceUnit where
  name : String
  source : String

namespace SourceUnit

def titled (u : SourceUnit) (text : String) : String := "== " ++ u.name ++ " ==\n" ++ text

def tokens (u : SourceUnit) : Except CompileError String :=
  match listTokens u.source with
  | .ok text => .ok (u.titled text)
  | .error e => .error (.ofLexError e)

def read (u : SourceUnit) : Except CompileError UnitTree :=
  match parse u.source u.name with
  | .ok p => .ok ⟨p.tree, p.nextId⟩
  | .error e => .error (.ofParseError e)

end SourceUnit

/-- A session: its options, and the labels of the last compilation. -/
structure Session where
  options : CompileOptions := {}
  labels : LabelTable := {}

namespace Session

/-- The code of trees, or what is shown in its place. -/
def compileTrees (options : CompileOptions) (trees : List UnitTree) :
    EStateM CompileError LabelTable String := do
  let program ← transform trees options.folding
  if options.dump = some .transformed then return program.text
  match assemble program with
  | .ok text => return text
  | .error e => throw e

/-- What a compilation gives, and the labels it used. -/
def compileUnits (options : CompileOptions) (units : List SourceUnit) :
    EStateM CompileError LabelTable String := do
  if options.dump = some .tokens then
    match units.mapM SourceUnit.tokens with
    | .ok texts => return String.join texts
    | .error e => throw e
  else
    match units.mapM SourceUnit.read with
    | .error e => throw e
    | .ok trees =>
      if options.dump = some .ast then
        return String.join (units.zipWith (fun u t => u.titled (t.tree.print ++ "\n")) trees)
      else compileTrees options trees

/-- Compile units in order. Each compilation starts with no labels. -/
def compile (s : Session) (units : List SourceUnit) : Except CompileError String × Session :=
  match compileUnits s.options units {} with
  | .ok text labels => (.ok text, { s with labels })
  | .error e labels => (.error e, { s with labels })

end Session

end Garnet
