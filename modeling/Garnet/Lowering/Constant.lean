import Garnet.Integer.Basic
import Garnet.Tree.Basic

/-!
# Constant folding

A call of an integer operation on literals is replaced by its value, computed with the integers of
the target. A power is computed only up to an exponent of 256.
-/

namespace Garnet

namespace Constant

/-- The greatest exponent of a power that is computed. -/
def maxExponent : Nat := 256

def integer? : Tree → Option Integer
  | .int n => some (.ofInt n)
  | .big s => Integer.parse? s
  | _ => none

def literal (i : Integer) : Tree :=
  match i.toWord? with
  | some n => .int n
  | none => .big i.text

/-- The `n`-th power. -/
def power (base : Integer) : Nat → Integer
  | 0 => .ofInt 1
  | n + 1 => power base n * base

/-- The power, if the exponent is not negative and not too great. -/
def power? (base exponent : Integer) : Option Integer := do
  let n ← exponent.toWord?
  if 0 ≤ n && n ≤ maxExponent then some (power base n.toNat) else none

def evaluate? (op : String) (a b : Integer) : Option Tree :=
  match op with
  | "+" => some (literal (a + b))
  | "-" => some (literal (a - b))
  | "*" => some (literal (a * b))
  | "**" => (power? a b).map literal
  | "<" => some (.bool (compare a b == .lt))
  | "<=" => some (.bool (compare a b != .gt))
  | ">" => some (.bool (compare a b == .gt))
  | ">=" => some (.bool (compare a b != .lt))
  | "==" => some (.bool (compare a b == .eq))
  | _ => none

/-- The value of a call without a block on literals. -/
def call? (n : Node) : Option Tree := do
  if !(n.child 3).isAbsent then none
  let left ← integer? (n.child 0)
  let op ← (n.child 1).name?
  match (n.child 2).children with
  | [] => if op == "-@" then some (literal (-left)) else none
  | [right] => evaluate? op left (← integer? right)
  | _ => none

end Constant

mutual

/-- Replace calls on literals by their values, innermost ones first. -/
def fold : Tree → Tree
  | .node tag span id children =>
    let n : Node := ⟨tag, span, id, foldAll children⟩
    if tag == .send then (Constant.call? n).getD n.tree else n.tree
  | e => e

def foldAll : List Tree → List Tree
  | [] => []
  | e :: es => fold e :: foldAll es

end

end Garnet
