import Garnet.Closure.Lift
import Garnet.Lowering.Constant
import Garnet.Lowering.Structure
import Garnet.Lowering.Sugar
import Garnet.Reading.Unit
import Garnet.Storage.Resolve

/-!
# From units to a program

All units are lowered, then the definitions of all of them are collected, then the names of each are
resolved, and then each is cut into routines.
-/

namespace Garnet

/-- A unit whose text was read. -/
structure UnitTree where
  tree : Tree
  /-- The identity of the next node. -/
  nextId : Nat

namespace UnitTree

def pass (u : UnitTree) (f : Tree → Pass Tree) : Except CompileError UnitTree :=
  match f u.tree u.nextId with
  | .ok tree nextId => .ok ⟨tree, nextId⟩
  | .error e _ => .error e

/-- Lower a unit, with calls on literals replaced by their values if `folding`. -/
def lower (u : UnitTree) (folding : Bool) : Except CompileError UnitTree := do
  let u ← u.pass lowerStructure
  let u : UnitTree := if folding then { u with tree := fold u.tree } else u
  let u ← u.pass lowerSugar
  u.pass lowerYields

def numbered (units : List UnitTree) : List (Nat × UnitTree) := units.mapIdx fun i u => (i, u)

end UnitTree

def resolveUnits (units : List UnitTree) : Resolve (List UnitTree) := do
  (UnitTree.numbered units).forM fun (i, u) => collect i u.tree
  finishCollect
  (UnitTree.numbered units).mapM fun (i, u) => do
    let tree ← resolve i u.nextId u.tree
    return ⟨tree, (← get).nextId⟩

def unitLabel (i : Nat) : String := "__unit_" ++ Numeral.decimal i

def sentName? (e : Tree) : Option String := do
  let n ← e.node?
  match n.tag with
  | .call => n.name? 0
  | .send | .safeSend => n.name? 1
  | _ => none

/-- Give every name that a routine sends a place in the method tables. -/
def allotSentNames (t : ClassTable) (r : Routine) : ClassTable :=
  (r.body.subtrees.filterMap sentName?).foldl (fun t name =>
    { t with slots := t.slots.insert name }) t

/-- Make a program of units. The labels in use stay known also after a fault. -/
def transform (units : List UnitTree) (folding : Bool) : EStateM CompileError LabelTable Program :=
  fun labels =>
    match units.mapM (UnitTree.lower · folding) with
    | .error e => .error e labels
    | .ok units =>
      match resolveUnits units (.start labels) with
      | .error e r => .error e r.labels
      | .ok units r =>
        match (UnitTree.numbered units).mapM fun (i, u) =>
            liftRoutines (unitLabel i) u.tree u.nextId with
        | .error e => .error e r.labels
        | .ok routines =>
          let routines := routines.flatten
          let program : Program :=
            { routines
              units := (List.range units.length).map unitLabel
              classes := routines.foldl allotSentNames r.classes
              statics := r.statics
              classSites := r.sites }
          .ok program r.labels

end Garnet
