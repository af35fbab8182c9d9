import Garnet.Source.Utf8

/-!
# Escape sequences

The sequences a double-quoted literal may hold after a backslash, and a way to write any byte string
so that it reads back as itself: `Escape.encode` uses only sequences that an assembler understands
in its own string directives as well.
-/

namespace Garnet

/-- Why an escape sequence cannot be read. -/
inductive EscapeError where
  | unterminated
  | hex
  | metaKey
  | control
  | operand
  | unicodeUnterminated
  | unicode
deriving DecidableEq, Repr

def EscapeError.message : EscapeError → String
  | .unterminated => "unterminated escape sequence"
  | .hex => "invalid hex escape"
  | .metaKey => "invalid meta escape"
  | .control => "invalid control escape"
  | .operand => "invalid escape operand"
  | .unicodeUnterminated => "unterminated unicode escape"
  | .unicode => "invalid unicode escape"

namespace Escape

/-- What an escape sequence stands for, and how many bytes behind the backslash it takes. -/
abbrev Decoded := Bytes × Nat

def value (radix : Nat) (ds : Bytes) : Nat :=
  ds.foldl (fun acc d => acc * radix + (d.digit? radix).getD 0) 0

/-- The control character on the key `b`. -/
def control (b : Byte) : Byte := if b == 63 then 0x7F else b &&& 0x9F

/-- The number written in hexadecimal `digits`, in 32 bits. More than eight digits wrap around. -/
def codePoint (digits : Bytes) : UInt32 :=
  digits.foldl (fun acc d => acc * 16 + UInt32.ofNat ((d.digit? 16).getD 0)) 0

/-- The character with the number written in hexadecimal `digits`. -/
def unicodeChar (digits : Bytes) : Except EscapeError Bytes :=
  let n := (codePoint digits).toNat
  if digits.isEmpty || !digits.all (Byte.isDigitOf 16) then .error .unicode
  else if n < 0xD800 || (0xDFFF < n && n < 0x110000) then .ok (utf8 (Char.ofNat n).toString)
  else .error .unicode

/-- The number behind `\u`: four digits, or any number of them between braces. -/
def unicode (src : Bytes) : Except EscapeError Decoded :=
  match src with
  | 123 :: rest =>
    if rest.contains 125 then
      let digits := rest.takeWhile (· != 125)
      (unicodeChar digits).map (·, digits.length + 2)
    else .error .unicodeUnterminated
  | _ =>
    let digits := src.take 4
    (unicodeChar digits).map (·, digits.length)

mutual

/-- Decode the sequence behind a backslash. A character without a meaning of its own stands for
itself, and an escaped line end for nothing. -/
def decode (src : Bytes) : Except EscapeError Decoded :=
  match src with
  | [] => .error .unterminated
  | c :: rest =>
    match c.toChar with
    | '\n' => .ok ([], 1)
    | 'n' => .ok ([10], 1)
    | 't' => .ok ([9], 1)
    | 'r' => .ok ([13], 1)
    | 'e' => .ok ([27], 1)
    | 's' => .ok ([32], 1)
    | 'a' => .ok ([7], 1)
    | 'b' => .ok ([8], 1)
    | 'f' => .ok ([12], 1)
    | 'v' => .ok ([11], 1)
    | 'x' =>
      let digits := (rest.take 2).takeWhile (Byte.isDigitOf 16)
      if digits.isEmpty then .error .hex
      else .ok ([UInt8.ofNat (value 16 digits)], digits.length + 1)
    | 'u' => (unicode rest).map fun (bytes, n) => (bytes, n + 1)
    | 'M' =>
      match rest with
      | 45 :: key => (operand key).map fun (b, n) => ([b ||| 0x80], n + 2)
      | _ => .error .metaKey
    | 'C' =>
      match rest with
      | 45 :: key => (operand key).map fun (b, n) => ([control b], n + 2)
      | _ => .error .control
    | 'c' => (operand rest).map fun (b, n) => ([control b], n + 1)
    | _ =>
      if c.isDigitOf 8 then
        let digits := (src.take 3).takeWhile (Byte.isDigitOf 8)
        .ok ([UInt8.ofNat (value 8 digits)], digits.length)
      else
        let char := src.take c.charLength
        .ok (char, char.length)
termination_by src.length

/-- The one byte a meta or control sequence applies to, which may be written as an escape itself. -/
def operand (src : Bytes) : Except EscapeError (Byte × Nat) :=
  match src with
  | [] => .error .unterminated
  | b :: rest =>
    if b == 92 then
      match decode rest with
      | .ok ([b], n) => .ok (b, n + 1)
      | .ok _ => .error .operand
      | .error e => .error e
    else .ok (b, 1)
termination_by src.length

end

/-- Decode a single-quoted body, where only the backslash and the closing delimiter can be
escaped. -/
def decodeSingle (close : Byte) : Bytes → Bytes
  | [] => []
  | [b] => [b]
  | b :: c :: rest =>
    if b == 92 && (c == 92 || c == close) then c :: decodeSingle close rest
    else b :: decodeSingle close (c :: rest)

def octal (b : Byte) : List Char := [b >>> 6, (b >>> 3) &&& 7, b &&& 7].map fun d => Byte.toChar (d + 48)

/-- One byte as the inside of a double-quoted literal. -/
def encodeByte (b : Byte) : List Char :=
  match b.toChar with
  | '"' => ['\\', '"']
  | '\\' => ['\\', '\\']
  | '\n' => ['\\', 'n']
  | '\t' => ['\\', 't']
  | '#' => ['\\', '0', '4', '3']
  | c => if 32 ≤ b && b ≤ 126 then [c] else '\\' :: octal b

/-- Bytes as the inside of a double-quoted literal that decodes to them. -/
def encode (bs : Bytes) : String := String.ofList (bs.flatMap encodeByte)

end Escape

end Garnet
