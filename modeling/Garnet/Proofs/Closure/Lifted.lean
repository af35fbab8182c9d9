import Garnet.Proofs.Closure.Activation
import Garnet.Proofs.Closure.Outline

/-!
# What lifting makes of a tree

`Lifted ss T p e e'` says what a tree `e` at a place `p` becomes, for scopes `ss` and a table `T` of their
routines. A variable stays a name only in the scope that owns it and if no other scope mentions it; else it becomes
a word of the heap frame of its owner, at the end of a path. A `return` or `break` that leaves a block gets a path
to the heap frame of the method, or of the scope that created the block. A block or a definition becomes a
reference to a routine of the table, whose body is what the lifting makes of the body at hand.
-/

namespace Garnet

namespace Closure

def Place.inLoop (p : Place) : Place := { p with loops := p.loops + 1 }

/-- A `return` or a `break` at the place leaves a block that is not strict. -/
def Place.leavesBlock (ss : Scopes) (p : Place) : Bool := (ss.get p.scope).kind = .block && !(ss.get p.scope).strict

/-- The scope was opened for a block or a definition, which has these parameters. -/
structure Scope.IsFor (s : Scope) (k : RoutineKind) (outer : Option Nat) (ps : Tree) : Prop where
  kind : s.kind = k
  parent : s.parent = outer
  params : s.params = plainParams ps
  rest : s.rest = restParam? ps
  blockParam : s.blockParam = (Yield.blockParam? ps).getD
    (if k = .block then Yield.lambdaBlock else Yield.methodBlock)

lemma Scope.IsFor.of_opened {s : Scope} {k : RoutineKind} {outer : Option Nat} {ps : Tree}
    (h : s.opened.IsFor k outer ps) : s.IsFor k outer ps :=
  ⟨h.kind, h.parent, h.params, h.rest, h.blockParam⟩

/-- The tags whose nodes keep their tag and all whose children are lifted. -/
def Tag.isUniform (t : Tag) : Bool :=
  t.calleePlace?.isNone && !([.lambda, .method, .classBody, .const, .singletonMethod, .singletonClass,
    .loop, .doLoop, .ret, .leave, .proceed] : List Tag).contains t

/-- A tree at a place, and what lifting makes of it. -/
inductive Lifted (ss : Scopes) (T : Nat → Routine → Prop) : Place → Tree → Tree → Prop where
  | literal {p} {e : Tree} (hnode : e.node? = none)
    (hname : ∀ v, e.name? = some v → VarName.isLocal v = false) : Lifted ss T p e e
  | bare {p : Place} {v} (howner : ss.owner? p.scope v = some p.scope)
    (hcaptured : v ∉ (ss.get p.scope).captured) : Lifted ss T p (.name v) (.name v)
  | word {p : Place} {v o} {k : Nat} {path span id}
    (howner : ss.owner? p.scope v = some o) (hword : (ss.get o).captured[k]? = some v)
    (hpath : Reaches ss p.scope path o) : Lifted ss T p (.name v) (.node .index span id [path, .int (k + 2)])
  | uniform {p} {n : Node} {cs : List Tree} (htag : Tag.isUniform n.tag)
    (hlen : cs.length = n.children.length)
    (hcs : ∀ (j : Nat) c c', n.children[j]? = some c → cs[j]? = some c' → Lifted ss T p c c') :
    Lifted ss T p n.tree (n.rebuild cs)
  | call {p} {n : Node} {i : Nat} {cs : List Tree} (htag : n.tag.calleePlace? = some i)
    (hlen : cs.length = n.children.length) (hcallee : cs[i]? = n.children[i]?)
    (hcs : ∀ (j : Nat) c c', j ≠ i → n.children[j]? = some c → cs[j]? = some c' → Lifted ss T p c c') :
    Lifted ss T p n.tree (n.rebuild cs)
  | const {p} {n : Node} (htag : n.tag = .const) : Lifted ss T p n.tree n.tree
  | loop {p} {n : Node} {test body} (htag : n.tag = .loop ∨ n.tag = .doLoop)
    (htest : Lifted ss T p (n.child 0) test) (hbody : Lifted ss T p.inLoop (n.child 1) body) :
    Lifted ss T p n.tree (n.rebuild [test, body])
  | block {p : Place} {n : Node} {i id r} (htag : n.tag = .lambda)
    (hscope : (ss.get i).IsFor .block (some p.scope) (n.child 0)) (hlisted : T i r) (hr : r = routine ss i r.body)
    (hbody : Lifted ss T ⟨i, 0⟩ (n.child 1) r.body) : Lifted ss T p n.tree (.node .procNew n.span id
      [.name r.label, handedEnv ss p.scope, .int ((ss.get i).breakId.elim (-1) Int.ofNat)])
  | method {p} {n : Node} {i id} {r : Routine} (htag : n.tag = .method)
    (hscope : (ss.get i).IsFor .method none (n.child 3)) (hlabel : r.label = (n.name? 1).getD "")
    (hlisted : T i r) (hr : r = routine ss i r.body) (hbody : Lifted ss T ⟨i, 0⟩ (n.child 4) r.body) :
    Lifted ss T p n.tree (.node .method n.span id (n.children.take 3))
  | singletonMethod {p} {n : Node} {i id} {r : Routine} {object}
    (htag : n.tag = .singletonMethod) (hobject : Lifted ss T p (n.child 0) object)
    (hscope : (ss.get i).IsFor .method none (n.child 3)) (hlabel : r.label = (n.name? 2).getD "")
    (hlisted : T i r) (hr : r = routine ss i r.body) (hbody : Lifted ss T ⟨i, 0⟩ (n.child 4) r.body) :
    Lifted ss T p n.tree (.node .singletonMethod n.span id [object, n.child 1, n.child 2])
  | classBody {p} {n : Node} {i id r} (htag : n.tag = .classBody)
    (hscope : (ss.get i).IsFor .classBody none .absent) (hlisted : T i r) (hr : r = routine ss i r.body)
    (hbody : Lifted ss T ⟨i, 0⟩ (n.child 2) r.body) :
    Lifted ss T p n.tree (.node .classBody n.span id [n.child 0, .name r.label, n.child 1])
  | singletonClass {p} {n : Node} {i id r object}
    (htag : n.tag = .singletonClass) (hobject : Lifted ss T p (n.child 0) object)
    (hscope : (ss.get i).IsFor .classBody none .absent) (hlisted : T i r) (hr : r = routine ss i r.body)
    (hbody : Lifted ss T ⟨i, 0⟩ (n.child 1) r.body) :
    Lifted ss T p n.tree (.node .singletonClass n.span id [object, .name r.label])
  | ret {p} {n : Node} {value} (htag : n.tag = .ret)
    (hvalue : Lifted ss T p (n.child 0) value) (hstays : p.leavesBlock ss = false) :
    Lifted ss T p n.tree (n.rebuild [value])
  | retOut {p} {n : Node} {value path} (htag : n.tag = .ret)
    (hvalue : Lifted ss T p (n.child 0) value) (hleaves : p.leavesBlock ss)
    (hpath : Reaches ss p.scope path (ss.methodOf p.scope)) : Lifted ss T p n.tree (n.rebuild [value, path])
  | leave {p} {n : Node} {value} (htag : n.tag = .leave) (hvalue : Lifted ss T p (n.child 0) value)
    (hloop : 0 < p.loops ∨ (ss.get p.scope).kind ≠ .block) : Lifted ss T p n.tree (n.rebuild [value])
  | leaveStrict {p} {n : Node} {value id} (htag : n.tag = .leave)
    (hvalue : Lifted ss T p (n.child 0) value) (hloops : p.loops = 0)
    (hkind : (ss.get p.scope).kind = .block) (hstrict : (ss.get p.scope).strict) :
    Lifted ss T p n.tree (.node .ret n.span id [value])
  | leaveOut {p} {n : Node} {value path} {q id} (htag : n.tag = .leave)
    (hvalue : Lifted ss T p (n.child 0) value) (hloops : p.loops = 0)
    (hleaves : p.leavesBlock ss) (houter : (ss.get p.scope).outer? = some q)
    (hid : (ss.get p.scope).breakId = some id) (hpath : Reaches ss p.scope path q) :
    Lifted ss T p n.tree (n.rebuild [value, path, .int id])
  | proceed {p} {n : Node} {value} (htag : n.tag = .proceed) (hvalue : Lifted ss T p (n.child 0) value)
    (hloop : 0 < p.loops ∨ (ss.get p.scope).kind ≠ .block) : Lifted ss T p n.tree (n.rebuild [value])
  | proceedBlock {p} {n : Node} {value id} (htag : n.tag = .proceed)
    (hvalue : Lifted ss T p (n.child 0) value) (hloops : p.loops = 0)
    (hkind : (ss.get p.scope).kind = .block) : Lifted ss T p n.tree (.node .ret n.span id [value])

/-- The routine of scope `i` in the table, whose body is what lifting makes of a tree. -/
structure RoutineOf (ss : Scopes) (T : Nat → Routine → Prop) (i : Nat) (body : Tree) (r : Routine) :
    Prop where
  listed : T i r
  eq : r = routine ss i r.body
  body : Lifted ss T ⟨i, 0⟩ body r.body

end Closure

end Garnet
