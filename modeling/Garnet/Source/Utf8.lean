import Garnet.Source.Byte

/-!
# Text of bytes

`Utf8.decode` reads bytes as UTF-8. What is not UTF-8 does not stop it: each longest run of bytes
that starts like a character and is cut short, and each byte that can start none, becomes one
replacement character.
-/

namespace Garnet

namespace Utf8

/-- For the lead byte of a longer character: how many tail bytes follow, and the least and the
greatest value of the first of them. -/
def tails (lead : Byte) : Option (Nat × Byte × Byte) :=
  if 0xC2 ≤ lead && lead ≤ 0xDF then some (1, 0x80, 0xBF)
  else if lead == 0xE0 then some (2, 0xA0, 0xBF)
  else if lead == 0xED then some (2, 0x80, 0x9F)
  else if 0xE1 ≤ lead && lead ≤ 0xEF then some (2, 0x80, 0xBF)
  else if lead == 0xF0 then some (3, 0x90, 0xBF)
  else if lead == 0xF4 then some (3, 0x80, 0x8F)
  else if 0xF1 ≤ lead && lead ≤ 0xF3 then some (3, 0x80, 0xBF)
  else none

/-- How many of the next `n` bytes are tails, the first of them between `lo` and `hi`. -/
def tailCount : Nat → Byte → Byte → Bytes → Nat
  | n + 1, lo, hi, b :: bs =>
    if lo ≤ b && b ≤ hi then tailCount n 0x80 0xBF bs + 1 else 0
  | _, _, _, _ => 0

/-- The character that a lead byte and its tails encode. -/
def assemble (lead : Byte) (ts : Bytes) : Char :=
  Char.ofNat <| ts.foldl (fun acc t => acc * 64 + t.toNat % 64) (lead.toNat % (1 <<< (6 - ts.length)))

def replacement : Char := '�'

def decodeChars : Bytes → List Char
  | [] => []
  | b :: bs =>
    if b < 0x80 then b.toChar :: decodeChars bs
    else match tails b with
      | none => replacement :: decodeChars bs
      | some (n, lo, hi) =>
        let k := tailCount n lo hi bs
        (if k = n then assemble b (bs.take k) else replacement) :: decodeChars (bs.drop k)
termination_by bs => bs.length

def decode (bs : Bytes) : String := String.ofList (decodeChars bs)

/-- Whether the bytes are UTF-8 throughout. -/
def isValid : Bytes → Bool
  | [] => true
  | b :: bs =>
    if b < 0x80 then isValid bs
    else match tails b with
      | none => false
      | some (n, lo, hi) => tailCount n lo hi bs == n && isValid (bs.drop n)
termination_by bs => bs.length

end Utf8

end Garnet
