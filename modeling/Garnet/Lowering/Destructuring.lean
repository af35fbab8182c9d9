import Garnet.Lowering.Pass

/-!
# Assignment to several targets

The elements of an array are assigned to targets one by one. A target with a star takes the elements
that the targets before and behind it leave over; a group of targets takes one element apart in turn.
-/

namespace Garnet

namespace Destructuring

def paramTarget : Tree → Tree
  | .node .rest span id children =>
    .node .splat span id [(Node.mk .rest span id children).child 0]
  | .node .default span id children => (Node.mk .default span id children).child 0
  | e => e

/-- The value and the place of an assignment. -/
structure Source where
  value : Tree
  span : Span

/-- The index of the target at place `i` of `count`. Behind a star indexes count from the end. -/
def index (splat : Option Nat) (count i : Nat) (span : Span) : Pass Tree :=
  match splat with
  | some s =>
    if i = s then
      Build.send span (.name "Range") "new"
        [.int i, .int (-((count - s - 1 : Nat) + 1 : Int)), .bool false]
    else if s < i then return .int ((i : Int) - count)
    else return .int i
  | none => return .int i

section

variable (rec : Source → Tree → Pass Tree)

/-- Assign the elements of the array in the variable `array` to the targets from place `i` on. -/
def bindFrom (array : String) (splat : Option Nat) (count : Nat) (span : Span) :
    Nat → List Tree → Pass (List Tree)
  | _, [] => return []
  | i, target :: targets => do
    let place ← index splat count i span
    let value ← Build.send span (.name array) "[]" [place]
    let stmt ← rec ⟨value, span⟩ target
    return stmt :: (← bindFrom array splat count span (i + 1) targets)

/-- Assign the elements of the array in the variable `array` to the targets. -/
def bindElements (array : String) (targets : List Tree) (span : Span) : Pass (List Tree) :=
  bindFrom rec array (targets.findIdx? (·.is .splat)) targets.length span 0 targets

/-- Assign a value to several targets. One that is no array counts as an array of one element. -/
def assignAll (targets : List Tree) (source : Source) : Pass Tree := do
  let ⟨value, span⟩ := source
  let tmp ← Build.temp "masgn"
  let set ← Build.assign (.name tmp) value span
  let wrap ←
    if value.is .array then pure []
    else do
      let isArray ← Build.send span (.name tmp) "is_a?" [.name "Array"]
      let wrapped ← Build.node .array span [.name tmp]
      let wrap ← Build.assign (.name tmp) wrapped span
      pure [← Build.cond span isArray .nil wrap]
  let stmts ← bindElements rec tmp targets span
  Build.seq span (set :: wrap ++ stmts ++ [.name tmp])

def assignStep (source : Source) (target : Tree) : Pass Tree :=
  match target with
  | .node .splat span id children =>
    let inner := (Node.mk .splat span id children).child 0
    if inner.isAbsent then return source.value else rec source inner
  | .node .array _ _ children | .node .destruct _ _ children =>
    assignAll rec (children.map paramTarget) source
  | target => Build.assign target source.value source.span

end

/-- Assign a value to one target, which may be a group. -/
def assignTarget (source : Source) (target : Tree) : Pass Tree := Tree.recurse assignStep source target

end Destructuring

end Garnet
