import Garnet.Token.Lexer

/-!
# Quoted literals

Strings, symbols between quotes, single characters, the percent forms and regular expressions. A
literal ends at its closing delimiter; where code can be interpolated, the code is passed over as a
whole.
-/

namespace Garnet

/-! ### Words -/

namespace Scan

def name : Scan String := return Utf8.decode (← takeWhile Byte.isIdent)

/-- Read the first entry of `table` that the text goes on with. -/
def oneOf (table : List String) : Scan (Option String) := do
  let c := (← get).cursor
  match table.find? c.startsWith with
  | some s => skip (utf8 s).length; return some s
  | none => return none

def operatorName : Scan (Option String) := oneOf operatorNames

/-- Read punctuation; nothing else is left to be read here. -/
def punct (start : Pos) : Scan TokenKind := do
  match ← oneOf punctuation with
  | some p => return .punct p
  | none =>
    let c := (← peek).elim '?' Byte.toChar
    skip 1
    fail (.unexpected c) start

/-- Read a name with its trailing `?`, `!` or `:`, and tell reserved words from others. Behind a dot
every word is a method name. -/
def word : Scan TokenKind := do
  let preceding := (← get).preceding
  let isConst := (← peek).any Byte.isUpper
  let mut text ← name
  let mark ← peek
  if !isConst && (mark == some 63 || mark == some 33) && (← peekAt 1) != some 61 then
    text := text ++ (mark.elim "" fun b => b.toChar.toString)
    skip 1
  if (← peek) == some 58 && (← peekAt 1) != some 58 && preceding != .dot
      && preceding != .definition then
    skip 1
    return .label text
  if preceding != .dot && Keyword.all.contains text then return .keyword text
  return if isConst then .const text else .ident text

def instanceOrClassVariable (start : Pos) : Scan TokenKind := do
  skip 1
  let isClass := (← peek) == some 64
  if isClass then skip 1
  if !(← peek).any (fun b => b.isIdent && !b.isDigit) then fail (.namelessVariable '@') start
  let text ← name
  return if isClass then .cvar ("@@" ++ text) else .ivar ("@" ++ text)

/-- Read a global variable; some are named by one punctuation mark. -/
def globalVariable (start : Pos) : Scan TokenKind := do
  skip 1
  match ← peek with
  | none => fail (.namelessVariable '$') start
  | some b =>
    if b.isIdent then return .gvar ("$" ++ (← name))
    else if (utf8 "!@&~=/\\,;.<>*$?:\"'").contains b then
      skip 1
      return .gvar (String.ofList ['$', b.toChar])
    else fail (.namelessVariable '$') start

/-- Read the name of a symbol behind its colon. A sigil without a name is passed over. -/
def symbolName : Scan (Option String) := do
  match ← peek with
  | none => return none
  | some b =>
    if b == 64 || b == 36 then
      let first := (← get).cursor
      skip 1
      if (← peek) == some 64 then skip 1
      let bytes ← takeWhile Byte.isIdent
      if bytes.isEmpty then return none
      return some (Utf8.decode (first.upTo (← get).cursor))
    else if b.isIdent && !b.isDigit then
      let text ← name
      let after ← peekAt 1
      let ending : Option Char := (← peek).bind fun b =>
        match b.toChar with
        | '?' => if after == some 61 then none else some '?'
        | '!' => if after == some 61 then none else some '!'
        | '=' => if after.any (utf8 "=~>").contains then none else some '='
        | _ => none
      match ending with
      | some c =>
        skip 1
        return some (text.push c)
      | none => return some text
    else operatorName

end Scan

namespace Quotation

/-- How a search for a closing delimiter ends, with the number of bytes before it. -/
inductive Found where
  | closed (length : Nat)
  | openLiteral
  | openCode (length : Nat)
deriving DecidableEq, Repr

/-- Look for the delimiter `close` that balances `depth + 1` opening ones, `n` bytes into the
literal. -/
def find (opening close : Byte) (interpolates : Bool) (depth n : Nat) : Bytes → Found
  | [] => .openLiteral
  | b :: rest =>
    if b == 92 then
      match rest with
      | [] => .openLiteral
      | _ :: rest => find opening close interpolates depth (n + 2) rest
    else if b == 35 && interpolates && rest.head? == some 123 then
      match Interpolation.closing none 0 0 (rest.drop 1) with
      | none => .openCode n
      | some k => find opening close interpolates depth (n + k + 3) (rest.drop (k + 2))
    else if b == close then
      if depth == 0 then .closed n else find opening close interpolates (depth - 1) (n + 1) rest
    else if b == opening then find opening close interpolates (depth + 1) (n + 1) rest
    else find opening close interpolates depth (n + 1) rest
termination_by src => src.length

/-- How many bytes of a regular expression stand before the slash that closes it; inside a character
class a slash stands for itself. -/
def regexLength (inClass : Bool) (n : Nat) : Bytes → Option Nat
  | [] => none
  | [b] => if b == 47 && !inClass then some n else none
  | b :: c :: rest =>
    match b.toChar with
    | '\\' => regexLength inClass (n + 2) rest
    | '[' => regexLength true (n + 1) (c :: rest)
    | ']' => regexLength false (n + 1) (c :: rest)
    | '/' => if inClass then regexLength inClass (n + 1) (c :: rest) else some n
    | _ => regexLength inClass (n + 1) (c :: rest)

/-- An ASCII body with each escaped slash as a slash; other escapes stay as they are written. -/
def unescapeSlash : List Char → List Char
  | '\\' :: '/' :: cs => '/' :: unescapeSlash cs
  | '\\' :: c :: cs => '\\' :: c :: unescapeSlash cs
  | c :: cs => c :: unescapeSlash cs
  | [] => []

/-- A text with every backslash before a slash dropped. -/
def dropBeforeSlash : List Char → List Char
  | '\\' :: '/' :: cs => '/' :: dropBeforeSlash cs
  | c :: cs => c :: dropBeforeSlash cs
  | [] => []

/-- The source of a regular expression from the bytes between the slashes. -/
def regexSource (body : Bytes) : String :=
  let chars := Utf8.decodeChars body
  String.ofList <| if body.any (128 ≤ ·) then dropBeforeSlash chars else unescapeSlash chars

/-- The delimiter that closes what `b` opens. -/
def closingOf (b : Byte) : Byte :=
  match b.toChar with
  | '(' => 41
  | '[' => 93
  | '\x7b' => 125
  | '<' => 62
  | _ => b

end Quotation

namespace Scan

/-- Read up to the closing delimiter, the opening one being read already, and give the body with its
position. -/
def delimited (opening close : Byte) (interpolates : Bool) (start : Pos) : Scan (Bytes × Pos) := do
  let c := (← get).cursor
  match Quotation.find opening close interpolates 0 0 c.rest with
  | .closed n =>
    skip (n + 1)
    return (c.rest.take n, c.pos)
  | .openLiteral =>
    skipAll
    fail .unterminatedLiteral start
  | .openCode n =>
    skip n
    fail (.quote .unterminatedCode) start

/-- The token of a double-quoted body that stands at `pos`. -/
def doubleQuoted (raw : Bytes) (pos : Pos) : Scan TokenKind :=
  match Interpolation.parts raw pos with
  | .error e => throw ⟨.quote e.cause, .point e.pos⟩
  | .ok parts =>
    return match Interpolation.plain? parts with
      | some bytes => .str bytes
      | none => .interp parts

/-- Read what a colon starts: a path separator, a symbol, or the colon itself. -/
def colon (space : Bool) (start : Pos) : Scan TokenKind := do
  let opens := !(← get).valueEnded || space
  match ← peekAt 1 with
  | some b =>
    if b == 58 then
      skip 2
      return .punct "::"
    else if (b == 34 || b == 39) && opens then
      skip 2
      let (raw, pos) ← delimited b b (b == 34) start
      if b == 39 then return .symbol (Utf8.decode (Escape.decodeSingle b raw))
      match ← doubleQuoted raw pos with
      | .str bytes => return .symbol (Utf8.decode bytes)
      | _ => fail .interpolatedSymbol start
    else if opens && !b.isSpace then
      skip 1
      return (← symbolName).elim (.punct ":") .symbol
    else punct start
  | none => punct start

/-- Read a single character behind `?`, unless the `?` belongs to a condition. -/
def character? (space : Bool) : Scan (Option TokenKind) := do
  let l ← get
  let next := l.cursor.peekAt 1
  if isGap next || (l.valueEnded && !l.commandArg space) then return none
  let found : Option (Bytes × Nat) :=
    match next with
    | some 92 => (Escape.decode (l.cursor.rest.drop 2)).toOption.map fun (bytes, n) => (bytes, n + 2)
    | some b =>
      let bytes := (l.cursor.rest.drop 1).take b.charLength
      some (bytes, bytes.length + 1)
    | none => none
  match found with
  | none => return none
  | some (bytes, n) =>
    if (l.cursor.peekAt n).any Byte.isIdent then return none
    skip n
    return some (.str bytes)

def regexFlags : Scan String := return Utf8.decode (← takeWhile (utf8 "imxounse").contains)

/-- Read a percent literal, unless the `%` is an operator. -/
def percent? (space : Bool) (start : Pos) : Scan (Option TokenKind) := do
  let l ← get
  if l.valueEnded && !l.commandArg space then return none
  let isDelimiter (b : Byte) : Bool := (utf8 "([\x7b<|!/^").contains b
  let form : Option (Char × Byte × Nat) :=
    match l.cursor.peekAt 1, l.cursor.peekAt 2 with
    | some a, some b =>
      if (utf8 "wWiIqQsr").contains a && isDelimiter b then some (a.toChar, b, 3)
      else if isDelimiter a && a != 47 then some ('Q', a, 2)
      else none
    | some a, none => if isDelimiter a && a != 47 then some ('Q', a, 2) else none
    | none, _ => none
  match form with
  | none => return none
  | some (letter, opening, n) =>
    skip n
    let close := Quotation.closingOf opening
    let (raw, pos) ← delimited opening close ("QWI".contains letter) start
    match letter with
    | 'q' => return some (.str (Escape.decodeSingle close raw))
    | 'Q' => return some (← doubleQuoted raw pos)
    | 'w' | 'W' => return some (.words (Text.words (Utf8.decodeChars raw)))
    | 'i' | 'I' => return some (.symbols (Text.words (Utf8.decodeChars raw)))
    | 's' => return some (.symbol (Utf8.decode raw))
    | _ => return some (.regex (Utf8.decode raw) (← regexFlags))

def regex (start : Pos) : Scan TokenKind := do
  skip 1
  let rest := (← get).cursor.rest
  match Quotation.regexLength false 0 rest with
  | none =>
    skipAll
    fail .unterminatedRegex start
  | some n =>
    skip (n + 1)
    return .regex (Quotation.regexSource (rest.take n)) (← regexFlags)

end Scan

end Garnet
