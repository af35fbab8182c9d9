import Garnet.Integer.Magnitude
import Garnet.Source.Byte

/-!
# Numerals

The number a row of digits stands for in a radix, and the decimal numeral of a number of any size.
-/

namespace Garnet

namespace Numeral

/-- The number written by `digits`; what is no digit of the radix is passed over. -/
def value (radix : Nat) (digits : Bytes) : Nat :=
  digits.foldl (fun acc b => (b.digit? radix).elim acc (acc * radix + ·)) 0

/-- The least and the greatest number of a 64-bit word with a sign. -/
def fitsWord (n : Int) : Bool := -0x8000000000000000 ≤ n && n < 0x8000000000000000

/-- The number that the low 32 bits of `n` stand for, with a sign. -/
def wrap32 (n : Int) : Int := n.bmod 0x100000000

/-- The decimal numeral, with a minus sign for a negative number. -/
def decimal (n : Int) : String :=
  match n with
  | .ofNat k => String.ofList (Nat.toDigits 10 k)
  | .negSucc k => String.ofList ('-' :: Nat.toDigits 10 (k + 1))

/-- The digits of a number in base `10 ^ 9`, least one first. -/
def chunksOf (n : Nat) : List Nat :=
  if n = 0 then [] else n % 1000000000 :: chunksOf (n / 1000000000)

/-- A multiple of a number in base `10 ^ 9`, least digit first, and a carry. -/
def scaleChunks (factor : Nat) : List Nat → Nat → List Nat
  | [], carry => chunksOf carry
  | c :: cs, carry =>
    let n := c * factor + carry
    n % 1000000000 :: scaleChunks factor cs (n / 1000000000)

/-- The number written by `digits`, in base `10 ^ 9`, least digit first. -/
def chunks (radix : Nat) (digits : Bytes) : List Nat :=
  digits.foldl (fun acc b => (b.digit? radix).elim acc (scaleChunks radix acc)) [0]

/-- A minus sign if `negative`, then the decimal numeral of the number written by `digits`; zero too
can carry the sign. -/
def toDecimal (negative : Bool) (radix : Nat) (digits : Bytes) : String :=
  (if negative then "-" else "") ++ String.ofList (Magnitude.chunksText (chunks radix digits))

end Numeral

end Garnet
