import Garnet.Integer.Magnitude
import Garnet.Literal.Numeral

/-!
# Integers of the target

The target has one kind of integer in two forms. A number from `-2 ^ 30` to `2 ^ 30 - 1` is a fixnum,
one word with the lowest bit set; any number can be a heap integer, a sign and a magnitude. What an
operation gives, and how two integers compare, does not depend on the forms: `Integer.toInt` is the
number that an integer stands for, and a result is a fixnum whenever it fits one.
-/

namespace Garnet

/-- The sign of a number. -/
inductive Sign where
  | negative
  | zero
  | positive
deriving DecidableEq, Repr

namespace Sign

def toInt : Sign → Int
  | .negative => -1
  | .zero => 0
  | .positive => 1

def ofInt (n : Int) : Sign := if n < 0 then .negative else if n = 0 then .zero else .positive

def neg : Sign → Sign
  | .negative => .positive
  | .zero => .zero
  | .positive => .negative

def mul : Sign → Sign → Sign
  | .zero, _ | _, .zero => .zero
  | .positive, s => s
  | .negative, s => s.neg

end Sign

/-- A sign and a magnitude. -/
structure HeapInteger where
  sign : Sign
  limbs : Magnitude
deriving DecidableEq, Repr

namespace HeapInteger

def toInt (h : HeapInteger) : Int := h.sign.toInt * h.limbs.toNat

/-- The magnitude is normal, and it is empty exactly for the sign of zero. -/
def IsNormal (h : HeapInteger) : Prop := h.limbs.IsNormal ∧ (h.sign = .zero ↔ h.limbs = [])

/-- A magnitude with a sign; zero has the sign of zero. -/
def make (sign : Sign) (limbs : Magnitude) : HeapInteger :=
  let limbs := limbs.trim
  ⟨if limbs.isEmpty then .zero else sign, limbs⟩

def ofInt (n : Int) : HeapInteger := make (.ofInt n) (.ofNat n.natAbs)

def neg (h : HeapInteger) : HeapInteger := { h with sign := h.sign.neg }

def add (a b : HeapInteger) : HeapInteger :=
  if a.sign = .zero then b
  else if b.sign = .zero then a
  else if a.sign = b.sign then make a.sign (a.limbs.add b.limbs)
  else
    match a.limbs.cmp b.limbs with
    | .gt => make a.sign (a.limbs.sub b.limbs)
    | .lt => make b.sign (b.limbs.sub a.limbs)
    | .eq => make .zero []

def mul (a b : HeapInteger) : HeapInteger := make (a.sign.mul b.sign) (a.limbs.mul b.limbs)

/-- Compare by sign, and within one sign by magnitude. -/
def cmp (a b : HeapInteger) : Ordering :=
  if a.sign = b.sign then
    let byLimbs := a.limbs.cmp b.limbs
    if a.sign = .negative then byLimbs.swap else byLimbs
  else compare a.sign.toInt b.sign.toInt

/-- The number, if its magnitude is below `2 ^ 127`. -/
def toLongWord? (h : HeapInteger) : Option Int :=
  if h.limbs.length > 4 then none
  else if h.limbs.toNat < 0x80000000000000000000000000000000 then some h.toInt
  else none

def text (h : HeapInteger) : String :=
  match h.sign with
  | .zero => "0"
  | .negative => String.ofList ('-' :: h.limbs.text)
  | .positive => String.ofList h.limbs.text

end HeapInteger

/-- An integer of the target. -/
inductive Integer where
  | fixnum (n : Int32)
  | heap (h : HeapInteger)
deriving DecidableEq, Repr

namespace Integer

def isSmall (n : Int) : Bool := -0x40000000 ≤ n && n < 0x40000000

def toInt : Integer → Int
  | .fixnum n => n.toInt
  | .heap h => h.toInt

def ofInt (n : Int) : Integer := if isSmall n then .fixnum (.ofInt n) else .heap (.ofInt n)

/-- The number, if it fits a word of 128 bits whose magnitude has 127. -/
def toLongWord? : Integer → Option Int
  | .fixnum n => some n.toInt
  | .heap h => h.toLongWord?

/-- The number, if it fits a word of 64 bits. -/
def toWord? (i : Integer) : Option Int := i.toLongWord?.filter Numeral.fitsWord

def demote : Integer → Integer
  | .fixnum n => .fixnum n
  | .heap h =>
    match h.toLongWord?.filter isSmall with
    | some n => .fixnum (.ofInt n)
    | none => .heap h

def isFixnum : Integer → Bool
  | .fixnum _ => true
  | .heap _ => false

/-- The machine word of a fixnum: the number moved up by one bit, and the lowest bit set. -/
def tagged? : Integer → Option UInt32
  | .fixnum n => some (n.toUInt32 <<< 1 ||| 1)
  | .heap _ => none

def toHeap : Integer → HeapInteger
  | .fixnum n => .ofInt n.toInt
  | .heap h => h

def add : Integer → Integer → Integer
  | .fixnum a, .fixnum b => ofInt (a.toInt + b.toInt)
  | a, b => demote (.heap (a.toHeap.add b.toHeap))

def sub : Integer → Integer → Integer
  | .fixnum a, .fixnum b => ofInt (a.toInt - b.toInt)
  | a, b => demote (.heap (a.toHeap.add b.toHeap.neg))

def mul : Integer → Integer → Integer
  | .fixnum a, .fixnum b => ofInt (a.toInt * b.toInt)
  | a, b => demote (.heap (a.toHeap.mul b.toHeap))

def neg : Integer → Integer
  | .fixnum n => ofInt (-n.toInt)
  | .heap h => demote (.heap h.neg)

def cmp : Integer → Integer → Ordering
  | .fixnum a, .fixnum b => compare a.toInt b.toInt
  | a, b => a.toHeap.cmp b.toHeap

instance : Add Integer := ⟨add⟩
instance : Sub Integer := ⟨sub⟩
instance : Mul Integer := ⟨mul⟩
instance : Neg Integer := ⟨neg⟩
instance : Ord Integer := ⟨cmp⟩

def text : Integer → String
  | .fixnum n => Numeral.decimal n.toInt
  | .heap h => h.text

/-- The magnitude of a row of decimal digits, among which underscores may stand. -/
def parseDigits (cs : List Char) : Option Magnitude :=
  cs.foldlM (fun limbs c =>
    if c == '_' then some limbs
    else if c.isDigit then some (limbs.scaleAdd 10 (c.toNat - '0'.toNat))
    else none) []

/-- The integer of a decimal numeral: perhaps a minus sign, then digits, at least one. -/
def parse? (s : String) : Option Integer :=
  let (sign, digits) : Sign × List Char :=
    match s.toList with
    | '-' :: rest => (.negative, rest)
    | cs => (.positive, cs)
  if digits.any (· != '_') then
    (parseDigits digits).map fun limbs => demote (.heap (.make sign limbs))
  else none

end Integer

end Garnet
