import Garnet.Source.Byte

/-!
# Trees

Programs are trees of tagged nodes. A node has a tag, its children in order, the span it was read
from and an identity; a child that may be missing is `Tree.absent`. All passes of the compiler read
and build such trees. What the children of a node are depends on its tag:

* `seq`: statements
* `call`: name, `args`, block?
* `send`: receiver, name, `args`, block?
* `assign`: target, value
* `opAssign`: target, operator, value
* `multiAssign`: `array` of targets, value
* `cond`: condition, branch, other branch?
* `loop`: condition, body
* `select`: subject?, `arm` …, else?
* `arm`: `array` of tests, body
* `method`: name, `args`, body
* `singletonMethod`: receiver, name, `args`, body
* `classBody`: path, superclass?, body
* `moduleBody`: path, body
* `singletonClass`: object, body
* `lambda`: `args`, body
* `protect`: body, `rescue` …, else?, ensure?
* `rescue`: `array` of classes, target?, body
* `index`: frame, slot number
-/

namespace Garnet

/-- What a node stands for. -/
inductive Tag where
  | seq
  | call
  | send
  | safeSend
  | assign
  | opAssign
  | multiAssign
  | cond
  | loop
  | doLoop
  | select
  | arm
  | forLoop
  | method
  | singletonMethod
  | classBody
  | moduleBody
  | singletonClass
  | lambda
  | yield
  | blockGiven
  | super
  | implicitSuper
  | ret
  | leave
  | proceed
  | redo
  | retry
  | protect
  | rescue
  | array
  | hash
  | pair
  | splat
  | doubleSplat
  | blockPass
  | and
  | or
  | not
  | range
  | exclusiveRange
  | regex
  | interp
  | path
  | topPath
  | args
  | rest
  | blockArg
  | default
  | destruct
  | keywordArg
  | inclusion
  | aliasing
  | defined
  /-- A chain of calls with a safe call below its last one. -/
  | safeChain
  /-- A class object or a static word. -/
  | const
  | numArgs
  | function
  /-- A block made into an object. -/
  | procNew
  | index
deriving DecidableEq, Repr

/-- The tags with the names they have in the text of a tree. -/
def Tag.names : List (Tag × String) :=
  [(.seq, "do"), (.call, "call"), (.send, "callm"), (.safeSend, "safecallm"), (.assign, "assign"),
    (.opAssign, "opassign"), (.multiAssign, "masgn"), (.cond, "if"), (.loop, "while"),
    (.doLoop, "dowhile"), (.select, "case"), (.arm, "when"), (.forLoop, "for"), (.method, "defm"),
    (.singletonMethod, "defs"), (.classBody, "class"), (.moduleBody, "module"),
    (.singletonClass, "sclass"), (.lambda, "lambda"), (.yield, "yield"),
    (.blockGiven, "block_given"), (.super, "super"), (.implicitSuper, "zsuper"), (.ret, "return"),
    (.leave, "break"), (.proceed, "next"), (.redo, "redo"), (.retry, "retry"), (.protect, "begin"),
    (.rescue, "rescue"), (.array, "array"), (.hash, "hash"), (.pair, "pair"), (.splat, "splat"),
    (.doubleSplat, "dsplat"), (.blockPass, "blockpass"), (.and, "and"), (.or, "or"), (.not, "not"),
    (.range, "range"), (.exclusiveRange, "erange"), (.regex, "regex"), (.interp, "interp"),
    (.path, "colon2"), (.topPath, "colon3"), (.args, "args"), (.rest, "rest"),
    (.blockArg, "blockarg"), (.default, "default"), (.destruct, "destruct"),
    (.keywordArg, "kwarg"), (.inclusion, "include"), (.aliasing, "alias"), (.defined, "defined"),
    (.safeChain, "safechain"), (.const, "const"), (.numArgs, "numargs"), (.function, "defun"),
    (.procNew, "proc_new"), (.index, "index")]

def Tag.text (t : Tag) : String := (names.lookup t).getD ""

def Tag.ofText? (s : String) : Option Tag := (names.find? (·.2 == s)).map (·.1)

/-- A program or a part of one. -/
inductive Tree where
  /-- A child that is not there. -/
  | absent
  | int (value : Int)
  /-- An integer beyond 64 bits, as a decimal numeral. -/
  | big (numeral : String)
  | float (numeral : String)
  | str (bytes : Bytes)
  /-- A symbol literal. -/
  | sym (name : String)
  /-- A variable of any kind, a constant, a method name, or `self`, `nil`, `true` or `false`. -/
  | name (text : String)
  | node (tag : Tag) (span : Span) (id : Nat) (children : List Tree)
deriving Inhabited

/-- A compound tree, taken apart. -/
structure Node where
  tag : Tag
  span : Span
  id : Nat
  children : List Tree

namespace Tree

def node? : Tree → Option Node
  | .node tag span id children => some ⟨tag, span, id, children⟩
  | _ => none

def name? : Tree → Option String
  | .name s => some s
  | _ => none

def span? : Tree → Option Span
  | .node _ span _ _ => some span
  | _ => none

/-- The span of a compound tree, or the one of the construct around it. -/
def spanOr (e : Tree) (around : Span) : Span := e.span?.getD around

def children : Tree → List Tree
  | .node _ _ _ children => children
  | _ => []

def isAbsent : Tree → Bool
  | .absent => true
  | _ => false

def is (e : Tree) (tag : Tag) : Bool :=
  match e with
  | .node t _ _ _ => t == tag
  | _ => false

mutual

/-- The tree and all trees in it, each before its children. -/
def subtrees : Tree → List Tree
  | .node tag span id children => .node tag span id children :: subtreesOf children
  | e => [e]

def subtreesOf : List Tree → List Tree
  | [] => []
  | e :: es => subtrees e ++ subtreesOf es

end

mutual

/-- The number of trees in a tree; an absent one does not count. -/
def size : Tree → Nat
  | .absent => 0
  | .node _ _ _ children => sizeOfAll children + 1
  | _ => 1

def sizeOfAll : List Tree → Nat
  | [] => 0
  | e :: es => size e + sizeOfAll es

end

theorem size_le_of_mem {e : Tree} {es : List Tree} (h : e ∈ es) : e.size ≤ sizeOfAll es := by
  induction es with
  | nil => simp at h
  | cons a as ih =>
    rcases List.mem_cons.1 h with rfl | h
    · simp [sizeOfAll]
    · have := ih h
      simp only [sizeOfAll]
      omega

/-- The value `nil`. -/
def nil : Tree := .name "nil"

/-- The value `true` or `false`. -/
def bool (b : Bool) : Tree := .name (if b then "true" else "false")

def text (s : String) : Tree := .str (utf8 s)

end Tree

namespace Node

def tree (n : Node) : Tree := .node n.tag n.span n.id n.children

/-- The child at place `i`. -/
def child (n : Node) (i : Nat) : Tree := n.children[i]?.getD .absent

def rebuild (n : Node) (children : List Tree) : Tree := .node n.tag n.span n.id children

theorem size_child_lt (n : Node) (i : Nat) : (n.child i).size < n.tree.size := by
  simp only [child, tree, Tree.size]
  cases h : n.children[i]? with
  | none => simp [Tree.size]
  | some e =>
    have := Tree.size_le_of_mem (List.mem_of_getElem? h)
    simp only [Option.getD_some]
    omega

end Node

/-! ### Names -/

namespace VarName

/-- `nil`, `true`, `false` and `self` are written like variables. -/
def isPseudo (name : String) : Bool := ["nil", "true", "false", "self"].contains name

/-- A name that starts with a small letter or an underscore is a local variable's. -/
def isLocal (name : String) : Bool :=
  name.toList.head?.any (fun c => c.isLower || c == '_') && !isPseudo name

/-- A name that starts with a capital letter is a constant's. -/
def isConstant (name : String) : Bool := name.toList.head?.any Char.isUpper

def startsWithAt (name : String) : Bool := name.toList.head? == some '@'

def isClassVariable (name : String) : Bool := name.toList.take 2 == ['@', '@']

def isGlobal (name : String) : Bool := name.toList.head? == some '$'

end VarName

end Garnet
