import Garnet.Tree.Basic

/-!
# Building nodes

Every node gets an identity that no other node of its unit has. Identities are handed out in order
by the monad in which a pass runs; `Fresh` is all that building needs of it.
-/

namespace Garnet

/-- A monad that hands out numbers, no number twice. -/
class Fresh (m : Type → Type) where
  fresh : m Nat

namespace Build

variable {m : Type → Type} [Monad m] [Fresh m]

def node (tag : Tag) (span : Span) (children : List Tree) : m Tree := do
  return .node tag span (← Fresh.fresh) children

def args (span : Span) (items : List Tree) : m Tree := node .args span items

/-- A call on `self`, without a block. -/
def call (span : Span) (name : String) (items : List Tree) : m Tree := do
  node .call span [.name name, ← args span items, .absent]

def send (span : Span) (receiver : Tree) (name : String) (items : List Tree) : m Tree := do
  node .send span [receiver, .name name, ← args span items, .absent]

def seq (span : Span) (stmts : List Tree) : m Tree := node .seq span stmts

def cond (span : Span) (test yes no : Tree) : m Tree := node .cond span [test, yes, no]

/-- The name of the method that assigns to what the method `name` reads. -/
def setter (name : String) : String := if name == "[]" then "[]=" else name ++ "="

/-- Assignment of `value` to `target`. An attribute or an element is assigned by a call of its setter,
also below safe calls. -/
def assign (target value : Tree) (span : Span) : m Tree :=
  match target with
  | .node .safeChain _ _ (inner :: _) => do node .safeChain span [← assign inner value span]
  | .node .safeChain _ _ [] => do
    node .safeChain span [← node .assign span [.absent, value]]
  | .node tag s id children =>
    let n : Node := ⟨tag, s, id, children⟩
    match tag, n.child 1 with
    | .send, .name name | .safeSend, .name name => do
      let items ← args span ((n.child 2).children ++ [value])
      node tag span [n.child 0, .name (setter name), items, .absent]
    | _, _ => node .assign span [target, value]
  | _ => node .assign span [target, value]

/-- A name for a variable that no source names, made from a fresh number. -/
def temp (stem : String) : m String := do
  let n ← Fresh.fresh
  return s!"__{stem}{n}"

end Build

end Garnet
