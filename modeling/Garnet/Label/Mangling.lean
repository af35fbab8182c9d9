import Garnet.Source.Text
import Std.Data.HashMap

/-!
# Labels for names

A label of the assembler is made of ASCII letters, digits and underscores. In the label of a name,
letters and digits stand for themselves, an underscore is written twice, and any other character is a
code between underscores: a short word, or `x` and the hexadecimal numeral of the character.
-/

namespace Garnet

/-! ### The labels of a program -/

/-- A thing of the source that has a label: what kind of thing, and its name. -/
structure Entity where
  kind : String
  name : String
deriving DecidableEq, Repr

def Entity.text (e : Entity) : String := e.kind ++ " " ++ e.name

/-- Two things with one label. -/
structure LabelClash where
  label : String
  new : Entity
  old : Entity
deriving DecidableEq, Repr

def LabelClash.message (c : LabelClash) : String :=
  c.new.text ++ " and " ++ c.old.text ++ " both map to the assembly label '" ++ c.label ++ "'"

/-- The labels in use, and what each of them names. -/
structure LabelTable where
  labels : Std.HashMap String Entity := {}

namespace LabelTable

def get? (t : LabelTable) (label : String) : Option Entity := t.labels[label]?

def size (t : LabelTable) : Nat := t.labels.size

def isEmpty (t : LabelTable) : Bool := t.labels.isEmpty

/-- Let `label` name a thing. -/
def insert (t : LabelTable) (label : String) (new : Entity) : Except LabelClash LabelTable :=
  match t.get? label with
  | some old => if old = new then .ok t else .error ⟨label, new, old⟩
  | none => .ok ⟨t.labels.insert label new⟩

end LabelTable

namespace Label

def codes : List (Char × String) :=
  [('+', "plus"), ('-', "minus"), ('*', "mul"), ('/', "div"), ('%', "mod"), ('<', "lt"),
    ('>', "gt"), ('=', "eq"), ('!', "not"), ('?', "p"), ('[', "lb"), (']', "rb"), ('&', "and"),
    ('|', "or"), ('^', "xor"), ('~', "tilde"), ('@', "at"), ('$', "dollar"), (':', "colon"),
    ('.', "dot")]

/-- The code of a character that does not stand for itself. -/
def code (c : Char) : List Char :=
  match codes.find? (·.1 == c) with
  | some (_, word) => word.toList
  | none => 'x' :: Nat.toDigits 16 c.toNat

def mangleChar (c : Char) : List Char :=
  if c.isAlphanum then [c]
  else if c == '_' then ['_', '_']
  else '_' :: (code c ++ ['_'])

def mangle (name : String) : String := String.ofList (name.toList.flatMap mangleChar)

/-- The number a hexadecimal numeral stands for; a plus sign may stand in front. -/
def hexValue? (cs : List Char) : Option Nat :=
  let digits := match cs with
    | '+' :: rest => rest
    | cs => cs
  if digits.isEmpty then none
  else
    digits.foldlM (fun n c =>
      let d : Option Nat :=
        if c.isDigit then some (c.toNat - '0'.toNat)
        else if 'a' ≤ c && c ≤ 'f' then some (c.toNat - 'a'.toNat + 10)
        else if 'A' ≤ c && c ≤ 'F' then some (c.toNat - 'A'.toNat + 10)
        else none
      d.map (n * 16 + ·)) 0

/-- The character with a number, if there is one. -/
def charOf? (n : Nat) : Option Char := if n.isValidChar then some (Char.ofNat n) else none

def decode? (code : List Char) : Option Char :=
  match codes.find? (·.2.toList == code) with
  | some (c, _) => some c
  | none =>
    match code with
    | 'x' :: digits => (hexValue? digits).bind charOf?
    | _ => none

/-- The characters of the name that has a label. Inside an escape, `code` holds the characters of its
code so far, last one first; an escape without a code is an underscore. -/
def demangleFrom (code : Option (List Char)) : List Char → Option (List Char)
  | [] => if code.isNone then some [] else none
  | c :: rest =>
    match code with
    | none =>
      if c == '_' then demangleFrom (some []) rest
      else (demangleFrom none rest).map (c :: ·)
    | some code =>
      if c != '_' then demangleFrom (some (c :: code)) rest
      else do
        let d ← if code.isEmpty then some '_' else decode? code.reverse
        return d :: (← demangleFrom none rest)

/-- The name that has a label. A character outside an escape stands for itself. -/
def demangle? (label : String) : Option String := (demangleFrom none label.toList).map String.ofList

def pathParts : List Char → List (List Char)
  | [] => [[]]
  | ':' :: ':' :: rest => [] :: pathParts rest
  | c :: rest =>
    match pathParts rest with
    | [] => [[c]]
    | p :: ps => (c :: p) :: ps

/-- The label of a class: the labels of the parts of its name. -/
def ofPath (name : String) : String :=
  "__".intercalate ((pathParts name.toList).map fun p => mangle (String.ofList p))

/-- The symbol that holds the place of a method name in every class. -/
def methodOffset (name : String) : String := "__voff__" ++ mangle name

def missingMethod (name : String) : String := "__mm__" ++ mangle name

/-- The code of a method of a class with a label. -/
def method (classLabel name : String) : String := "__method_" ++ classLabel ++ "_" ++ mangle name

end Label

end Garnet
