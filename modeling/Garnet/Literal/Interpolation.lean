import Garnet.Literal.Escape

/-!
# Interpolated text

The body of a double-quoted literal is a row of parts: decoded bytes, and source text of code that is
to be run in their place. Code is written `#{…}`, or `#` before an instance, class or global
variable. A part of code carries the position of its first byte.
-/

namespace Garnet

/-- A part of an interpolated text. -/
inductive StrPart where
  /-- Text, decoded. -/
  | lit (bytes : Bytes)
  /-- Source text of code, and where it stands. -/
  | code (source : String) (pos : Pos)
deriving DecidableEq, Repr

/-- Why a double-quoted body cannot be read. -/
inductive QuoteCause where
  | escape (cause : EscapeError)
  | unterminatedCode
deriving DecidableEq, Repr

def QuoteCause.message : QuoteCause → String
  | .escape e => e.message
  | .unterminatedCode => "unterminated interpolation"

/-- A fault in a double-quoted body, and where in the source it is. -/
structure QuoteError where
  cause : QuoteCause
  pos : Pos
deriving DecidableEq, Repr

namespace Interpolation

/-- How many bytes of code stand before the brace that closes it, after `skipped` bytes. Braces
inside the code nest; inside quotes (`quote`) they do not count; a backslash takes the next byte with
it. -/
def closing (quote : Option Byte) (depth skipped : Nat) : Bytes → Option Nat
  | [] => none
  | [b] => if b == 125 && quote.isNone && depth == 0 then some skipped else none
  | b :: c :: rest =>
    if b == 92 then closing quote depth (skipped + 2) rest
    else match quote with
      | some q => closing (if b == q then none else quote) depth (skipped + 1) (c :: rest)
      | none =>
        if b == 123 then closing none (depth + 1) (skipped + 1) (c :: rest)
        else if b == 125 then
          if depth == 0 then some skipped else closing none (depth - 1) (skipped + 1) (c :: rest)
        else if b == 34 || b == 39 then closing (some b) depth (skipped + 1) (c :: rest)
        else closing none depth (skipped + 1) (c :: rest)

/-- The index of the brace closing the code that starts at `start`. -/
def matchingBrace (src : Bytes) (start : Nat) : Option Nat := closing none 0 start (src.drop start)

/-- The variable, with its sigil, at the start of a text, in the short form of interpolation. -/
def shortVariable (src : Bytes) : Option Bytes :=
  match src with
  | s :: rest =>
    if s == 64 || s == 36 then
      let sigil := if rest.head? == some 64 then 2 else 1
      let name := (src.drop sigil).takeWhile fun b => b.isAlphanum || b == 95
      if name.head?.all Byte.isDigit then none else some (src.take sigil ++ name)
    else none
  | [] => none

/-- Collected text before further parts; parts are never empty. -/
def flush (lit : Bytes) (parts : List StrPart) : List StrPart :=
  if lit.isEmpty then parts else .lit lit.reverse :: parts

/-- The parts of the text that starts at `pos`, with `lit` the text read since the last part of code,
last byte first. -/
def split (pos : Pos) (lit : Bytes) : Bytes → Except QuoteError (List StrPart)
  | [] => .ok (flush lit [])
  | b :: rest =>
    if b == 92 then
      match Escape.decode rest with
      | .error e => .error ⟨.escape e, pos⟩
      | .ok (bytes, n) =>
        split (pos.advance (b :: rest.take n)) (bytes.reverse ++ lit) (rest.drop n)
    else if b == 35 && rest.head? == some 123 then
      let code := rest.drop 1
      match closing none 0 0 code with
      | none => .error ⟨.unterminatedCode, pos⟩
      | some n =>
        let start := pos.advance [35, 123]
        match split (start.advance (code.take (n + 1))) [] (code.drop (n + 1)) with
        | .error e => .error e
        | .ok parts => .ok (flush lit (.code (Utf8.decode (code.take n)) start :: parts))
    else if b == 35 then
      match shortVariable rest with
      | none => split (pos.next b) (b :: lit) rest
      | some name =>
        let start := pos.next b
        match split (start.advance name) [] (rest.drop name.length) with
        | .error e => .error e
        | .ok parts => .ok (flush lit (.code (Utf8.decode name) start :: parts))
    else split (pos.next b) (b :: lit) rest
termination_by src => src.length

/-- The parts of a double-quoted body whose first byte stands at `base`. -/
def parts (raw : Bytes) (base : Pos) : Except QuoteError (List StrPart) := split base [] raw

def plain? : List StrPart → Option Bytes
  | [] => some []
  | .lit bytes :: rest => (plain? rest).map (bytes ++ ·)
  | .code .. :: _ => none

end Interpolation

end Garnet
