import Garnet.Storage.Context

/-!
# Programs

What code is written for: routines without nested definitions or blocks, the classes, and the words
of static storage.
-/

namespace Garnet

/-- What a routine is the code of. -/
inductive RoutineKind where
  /-- The top level of a unit, run once with the main object as `self`. -/
  | main
  | method
  /-- The body of a class, run once with the class as `self`. -/
  | classBody
  /-- A block or a lambda, which also gets an environment. -/
  | block
deriving DecidableEq, Repr, Inhabited

/-- The code of a unit, a method, a class body or a block. -/
structure Routine where
  label : String
  kind : RoutineKind
  /-- The name of the block parameter. -/
  blockParam : String
  params : List String
  rest : Option String
  /-- The variables in the stack frame that are no parameters. -/
  locals : List String
  /-- The variables in the heap frame; `none` if there is no heap frame. -/
  env : Option (List String)
  body : Tree
  span : Span

namespace Routine

/-- The argument word of the first parameter: behind the receiver, the block, and for a block its
environment. -/
def firstParamWord (r : Routine) : Nat := if r.kind = .block then 3 else 2

/-- The word of the heap frame that holds a variable, behind the frame above and the stack frame. -/
def envSlot? (r : Routine) (name : String) : Option Nat := do
  let i ← (← r.env).idxOf? name
  return i + 2

def text (r : Routine) : String :=
  let names := "self" :: r.blockParam :: (if r.kind = .block then ["__penv__"] else []) ++ r.params
  let args := names.map (":" ++ ·) ++ (r.rest.map fun n => "[:rest, :" ++ n ++ "]").toList
  "[:defun, :" ++ r.label ++ ", [:args, " ++ ", ".intercalate args ++ "], " ++ r.body.print ++ "]\n"

end Routine

/-- A whole program. -/
structure Program where
  routines : List Routine
  /-- The labels of the units' top levels, in the order in which they run. -/
  units : List String
  classes : ClassTable
  statics : Std.TreeMap String StaticKind
  /-- The number of class bodies, each of which runs once. -/
  classSites : Nat

def Program.text (p : Program) : String := String.join (p.routines.map Routine.text)

end Garnet
