/-!
# Classes of source bytes

Source texts are read byte by byte. Every byte above 127 belongs to some character beyond ASCII and
counts as part of a name; all other classes are ASCII classes.
-/

namespace Garnet

/-! ### Positions

Every position that a token or a piece of interpolated code carries is the start of its text advanced over the
bytes before it. -/

abbrev Byte := UInt8

abbrev Bytes := List Byte

/-- A place in a source text. -/
structure Pos where
  /-- Bytes before the place. -/
  offset : Nat
  /-- Lines are counted from one. -/
  line : Nat
  /-- Columns are counted in bytes, from one. -/
  column : Nat
deriving DecidableEq, Repr, Inhabited

namespace Pos

def origin : Pos := ⟨0, 1, 1⟩

/-- The place just behind the byte `b`. -/
def next (p : Pos) (b : Byte) : Pos :=
  if b = 10 then ⟨p.offset + 1, p.line + 1, 1⟩ else ⟨p.offset + 1, p.line, p.column + 1⟩

/-- The place reached by reading `consumed`. -/
def advance (p : Pos) (consumed : Bytes) : Pos := consumed.foldl next p

@[simp] theorem advance_nil (p : Pos) : p.advance [] = p := rfl

@[simp] theorem advance_cons (p : Pos) (b : Byte) (bs : Bytes) :
    p.advance (b :: bs) = (p.next b).advance bs := rfl

theorem advance_append (p : Pos) (xs ys : Bytes) : p.advance (xs ++ ys) = (p.advance xs).advance ys := by
  simp [advance, List.foldl_append]

theorem offset_advance (p : Pos) (bs : Bytes) : (p.advance bs).offset = p.offset + bs.length := by
  induction bs generalizing p with
  | nil => simp
  | cons b bs ih =>
    rw [advance_cons, ih, List.length_cons]
    unfold next
    split <;> simp <;> omega

/-- `line:column`, as diagnostics show it. -/
def text (p : Pos) : String := s!"{p.line}:{p.column}"

/-- The place that `p`, counted inside a piece of text, has in the file where that piece starts at
`base`. -/
def relocate (p base : Pos) : Pos :=
  if p.line = 1 then ⟨base.offset + p.offset, base.line, base.column + p.column - 1⟩
  else ⟨base.offset + p.offset, base.line + p.line - 1, p.column⟩

end Pos

/-- A stretch of source text. -/
structure Span where
  start : Pos
  stop : Pos
deriving DecidableEq, Repr, Inhabited

namespace Span

def zero : Span := ⟨⟨0, 0, 0⟩, ⟨0, 0, 0⟩⟩

/-- The empty stretch at `p`. -/
def point (p : Pos) : Span := ⟨p, p⟩

def merge (a b : Span) : Span where
  start := if a.start.offset ≤ b.start.offset then a.start else b.start
  stop := if b.stop.offset ≤ a.stop.offset then a.stop else b.stop

/-- The stretch, counted inside a piece of text, as seen from the file where the piece starts at
`base`. -/
def relocate (s : Span) (base : Pos) : Span := ⟨s.start.relocate base, s.stop.relocate base⟩

def text (s : Span) : String := s.start.text

end Span

namespace Byte

/-- The character with the byte's number; for an ASCII byte, the character it stands for. -/
def toChar (b : Byte) : Char := Char.ofUInt8 b

def isDigit (b : Byte) : Bool := 48 ≤ b && b ≤ 57

def isUpper (b : Byte) : Bool := 65 ≤ b && b ≤ 90

def isLower (b : Byte) : Bool := 97 ≤ b && b ≤ 122

def isAlpha (b : Byte) : Bool := b.isUpper || b.isLower

def isAlphanum (b : Byte) : Bool := b.isAlpha || b.isDigit

/-- A letter, a digit, `_`, or part of a character beyond ASCII. -/
def isIdent (b : Byte) : Bool := b.isAlphanum || b == 95 || 128 ≤ b

def isSpace (b : Byte) : Bool := b == 32 || b == 9 || b == 10 || b == 13

/-- The value of a digit or letter as a digit of the given radix, if it is one. -/
def digit? (radix : Nat) (b : Byte) : Option Nat :=
  let v :=
    if b.isDigit then b.toNat - 48
    else if b.isLower then b.toNat - 87
    else if b.isUpper then b.toNat - 55
    else radix
  if v < radix then some v else none

def isDigitOf (radix : Nat) (b : Byte) : Bool := (b.digit? radix).isSome

/-- How many bytes the character starting with `lead` takes. -/
def charLength (lead : Byte) : Nat :=
  if 240 ≤ lead then 4 else if 224 ≤ lead then 3 else if 192 ≤ lead then 2 else 1

end Byte

/-- The end of the text and every white byte count as a gap. -/
def isGap (b : Option Byte) : Bool := b.all Byte.isSpace

def utf8 (s : String) : Bytes := s.toUTF8.data.toList

end Garnet
