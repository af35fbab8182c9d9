import Garnet.Diagnostic
import Garnet.Tree.Recursion

/-!
# Passes over a tree

A pass replaces the tree of a unit by another one.
-/

namespace Garnet

/-- A pass over the tree of a unit hands out identities and can fail. -/
abbrev Pass := EStateM CompileError Nat

instance {ε : Type} : Fresh (EStateM ε Nat) where
  fresh := modifyGet fun n => (n, n + 1)

def Pass.fail {α : Type} (cause : TransformCause) (span : Span) : Pass α := throw (.transform cause span)

namespace Node

variable {m : Type → Type} [Monad m]

def mapChildren (n : Node) (f : Tree → m Tree) : m Tree := return n.rebuild (← n.children.mapM f)

/-- The name that stands at place `i`. -/
def name? (n : Node) (i : Nat) : Option String := (n.child i).name?

end Node

end Garnet
