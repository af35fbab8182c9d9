import Garnet.Lowering.Pass

/-!
# Blocks of methods

`yield` calls the block of the method it stands in, also from within blocks and lambdas there, and
`block_given?` tests for it. The block is the method's block parameter, or an implicit one.
-/

namespace Garnet

namespace Yield

def methodBlock : String := "__closure__"

/-- The block of a block or lambda that does not name it, so that it hides no method's. -/
def lambdaBlock : String := "__lblock__"

def blockParam? (params : Tree) : Option String := do
  let p ← params.children.find? (·.is .blockArg)
  (← p.children.head?).name?

def asksForBlock (n : Node) : Bool :=
  (n.name? 0).any (fun s => s == "block_given?" || s == "iterator?")
    && (n.child 1).children.isEmpty && (n.child 2).isAbsent

/-- The treatment of one tree in a method with the given block, if any. -/
def step (rec : Option String → Tree → Pass Tree) (block : Option String) (e : Tree) : Pass Tree :=
  match e.node? with
  | none => return e
  | some n =>
    match n.tag with
    | .method => n.mapChildren (rec (some ((blockParam? (n.child 1)).getD methodBlock)))
    | .singletonMethod => n.mapChildren (rec (some ((blockParam? (n.child 2)).getD methodBlock)))
    | .classBody | .moduleBody | .singletonClass => n.mapChildren (rec none)
    | .yield =>
      match block with
      | none => Pass.fail .yieldOutsideMethod n.span
      | some b => do
        let args ← rec block (n.child 0)
        Build.node .send n.span [.name b, .name "call", args, .absent]
    | .call =>
      if asksForBlock n then
        match block with
        | some b => Build.cond n.span (.name b) (.bool true) (.bool false)
        | none => return .bool false
      else n.mapChildren (rec block)
    | _ => n.mapChildren (rec block)

end Yield

/-- Express `yield` and `block_given?` by the block of the method around them. -/
def lowerYields (e : Tree) : Pass Tree := Tree.recurse Yield.step none e

end Garnet
