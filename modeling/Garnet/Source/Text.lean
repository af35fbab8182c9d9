import Garnet.Source.CharSet

/-!
# Text for messages

White space in the sense of Unicode, the letters and digits a plain name is made of, and the way a
character or a text is shown in a message: between quotes, with every character that could not be
read back from a terminal written as an escape.
-/

namespace Garnet

namespace Text

/-- The characters with the Unicode property White_Space. -/
def isWhite (c : Char) : Bool :=
  let n := c.toNat
  (9 ≤ n && n ≤ 13) || n == 0x20 || n == 0x85 || n == 0xA0 || n == 0x1680
    || (0x2000 ≤ n && n ≤ 0x200A) || n == 0x2028 || n == 0x2029 || n == 0x202F || n == 0x205F
    || n == 0x3000

def isLetter (c : Char) : Bool := if c.toNat < 128 then c.isAlpha else CharSet.alphabetic.contains c

def isLetterOrNumeral (c : Char) : Bool :=
  if c.toNat < 128 then c.isAlphanum
  else CharSet.alphabetic.contains c || CharSet.numeric.contains c

def isVisible (c : Char) : Bool :=
  if c.toNat < 128 then 32 ≤ c.toNat && c.toNat < 127
  else CharSet.printable.contains c && !CharSet.extending.contains c

def words (cs : List Char) : List String :=
  (cs.splitBy fun a b => isWhite a == isWhite b).filterMap fun run =>
    if run.all isWhite then none else some (String.ofList run)

def hex (n : Nat) : String := String.ofList (Nat.toDigits 16 n)

/-- A character inside quotes of the kind `quote`. -/
def escapeChar (quote c : Char) : String :=
  match c with
  | '\x00' => "\\0"
  | '\t' => "\\t"
  | '\r' => "\\r"
  | '\n' => "\\n"
  | '\\' => "\\\\"
  | c =>
    if c == quote then String.ofList ['\\', c]
    else if isVisible c then c.toString
    else "\\u\x7b" ++ hex c.toNat ++ "\x7d"

def quoteChar (c : Char) : String := "'" ++ escapeChar '\'' c ++ "'"

def quote (s : String) : String := "\"" ++ String.join (s.toList.map (escapeChar '"')) ++ "\""

end Text

end Garnet
