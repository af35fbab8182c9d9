import Garnet.Literal.Indent
import Garnet.Token.Quotation

/-!
# The stream of tokens

`Lexer.next` reads one token; one token can be handed back with `Lexer.pushBack`. A stream ends with
the token `eof`, or with the first fault. `Lexer.tokens` is the whole stream of a text.
-/

namespace Garnet

/-! ### Numeric literals

Single underscores may stand between digits. A numeral beyond 64 bits keeps its value as decimal text. -/

/-- Read digits of the radix, with single underscores between them; the digits come without them. -/
def Cursor.digits (radix : Nat) (seen : Bool) : Bytes → Bytes × Nat
  | [] => ([], 0)
  | b :: rest =>
    if b.isDigitOf radix then
      let (ds, n) := digits radix true rest
      (b :: ds, n + 1)
    else if b == 95 && seen && rest.head?.any (Byte.isDigitOf radix) then
      let (ds, n) := digits radix seen rest
      (ds, n + 1)
    else ([], 0)

namespace Scan

def digitRun (radix : Nat) : Scan Bytes := do
  let (ds, n) := Cursor.digits radix false (← get).cursor.rest
  skip n
  return ds

/-- The base a letter behind a leading zero stands for. -/
def baseOf (b : Byte) : Option Nat :=
  match b.toChar with
  | 'x' | 'X' => some 16
  | 'b' | 'B' => some 2
  | 'o' | 'O' => some 8
  | 'd' | 'D' => some 10
  | _ => none

/-- Read what stands before the digits and tell the radix. A zero before a digit or an
underscore is passed over and makes the numeral octal; a base letter behind the next byte is passed
over with it in either case. -/
def radix : Scan Nat := do
  if (← peek) != some 48 then return 10
  let after ← peekAt 1
  let mut radix := 10
  if let some base := after.bind baseOf then radix := base
  else if after.any (fun b => b.isDigit || b == 95) then
    radix := 8
    skip 1
  if ((← peekAt 1).bind baseOf).isSome then skip 2
  return radix

def fraction : Scan (Option Bytes) := do
  if (← peek) == some 46 && (← peekAt 1).any Byte.isDigit then
    skip 1
    return some (46 :: (← digitRun 10))
  return none

/-- Read an exponent, with its letter as `e`. -/
def exponent : Scan (Option Bytes) := do
  let isSign (b : Option Byte) : Bool := b == some 43 || b == some 45
  let after ← peekAt 1
  if ((← peek) == some 101 || (← peek) == some 69)
      && (after.any Byte.isDigit || (isSign after && (← peekAt 2).any Byte.isDigit)) then
    skip 1
    let sign := if isSign after then after.toList else []
    skip sign.length
    return some (101 :: sign ++ (← digitRun 10))
  return none

def number (negative : Bool) (start : Pos) : Scan TokenKind := do
  let radix ← radix
  let ds ← digitRun radix
  if ds.isEmpty && radix != 10 && radix != 8 then fail .numeralWithoutDigits start
  let ds := if ds.isEmpty then [48] else ds
  if (← peek).any Byte.isDigit then fail (.invalidDigit radix) start
  if radix == 10 then
    let fraction ← fraction
    let exponent ← exponent
    if fraction.isSome || exponent.isSome then
      let sign : Bytes := if negative then [45] else []
      return .float (Utf8.decode (sign ++ ds ++ fraction.getD [] ++ exponent.getD []))
  let magnitude := Numeral.value radix ds
  let value : Int := if negative then -magnitude else magnitude
  return if Numeral.fitsWord value then .integer value
    else .bigInteger (Numeral.toDecimal negative radix ds)

end Scan

/-! ### Heredocs

The body is the lines behind the opener's line, up to a line that holds the name alone. With several openers on
one line, each body starts where the one before ends. -/

/-- Whether a line ends the heredoc named `id`. -/
def Heredoc.isEnd (id : List Char) (indented : Bool) (line : Bytes) : Bool :=
  let text := (Utf8.decodeChars line).reverse.dropWhile (· == '\r') |>.reverse
  (if indented then text.dropWhile Text.isWhite else text) == id

/-- The bytes of the body that starts at `c`, and the place behind the line that ends it. That place
counts as the start of a line also when the text ends there. -/
def Heredoc.body (id : List Char) (indented : Bool) (c : Cursor) : Option (Bytes × Cursor) :=
  match _h : c.rest with
  | [] => none
  | _ :: _ =>
    let line := c.run (· != 10)
    if isEnd id indented line then
      let next := c.skip (line.length + 1)
      some ([], { next with pos := ⟨next.pos.offset, c.pos.line + 1, 1⟩ })
    else
      (body id indented (c.skip (line.length + 1))).map fun (bytes, resume) =>
        (c.rest.take (line.length + 1) ++ bytes, resume)
termination_by c.rest.length
decreasing_by
  simp only [Cursor.skip, List.length_drop, _h, List.length_cons]
  omega

/-- Whether `<<` opens a heredoc here. -/
def Lexer.atHeredoc (l : Lexer) (space : Bool) : Bool :=
  let c := l.cursor
  let mark := if (c.peekAt 2).any fun b => b == 126 || b == 45 then 3 else 2
  c.peekAt 1 == some 60
    && (!l.valueEnded || (l.preceding == .ident && space))
    && (c.peekAt mark).any fun b => b == 34 || b == 39 || b == 95 || b.isAlpha

/-- Read the name of a heredoc between quotes of the kind `quote`. -/
def Scan.quotedName (quote : Byte) (start : Pos) : Scan String := do
  let bytes ← takeWhile fun b => b != 10 && b != quote
  if (← peek) != some quote then fail .unterminatedHeredocName start
  skip 1
  return Utf8.decode bytes

/-- Read the opener of a heredoc, and its body ahead of the rest of the line. -/
def Scan.heredoc (start : Pos) : Scan TokenKind := do
  skip 2
  let squiggly := (← peek) == some 126
  let indented := squiggly || (← peek) == some 45
  if indented then skip 1
  let quote := (← peek).filter fun b => b == 39 || b == 34
  let id ← match quote with
    | some q => skip 1; quotedName q start
    | none => name
  let l ← get
  let line := l.cursor.run (· != 10)
  let first : Option Cursor :=
    match l.resume with
    | some place => some place
    | none =>
      if line.length < l.cursor.rest.length then some (l.cursor.skip (line.length + 1)) else none
  match first with
  | none => fail (.unterminatedHeredoc id) start
  | some first =>
    match Heredoc.body id.toList indented first with
    | none => fail (.unterminatedHeredoc id) start
    | some (bytes, resume) =>
      set { l with resume := some resume }
      let raw := if squiggly then utf8 (Indent.strip (Utf8.decode bytes)) else bytes
      if quote == some 39 then return .str raw
      doubleQuoted raw first.pos

namespace Lexer

/-- Read the token that starts with the byte `b`. -/
def kind (b : Byte) (space : Bool) (start : Pos) : Scan TokenKind := do
  let l ← get
  let next := l.cursor.peekAt 1
  if l.preceding == .definition && !b.isIdent && b != 40 then
    match ← Scan.operatorName with
    | some name => return .ident name
    | none => Scan.punct start
  else if b.isDigit then Scan.number false start
  else if (b == 45 || b == 43) && next.any Byte.isDigit && !l.valueEnded then
    Scan.skip 1
    Scan.number (b == 45) start
  else match b.toChar with
    | '@' => Scan.instanceOrClassVariable start
    | '$' => Scan.globalVariable start
    | '"' => do
      Scan.skip 1
      let (raw, pos) ← Scan.delimited 34 34 true start
      Scan.doubleQuoted raw pos
    | '\'' => do
      Scan.skip 1
      let (raw, _) ← Scan.delimited 39 39 false start
      return .str (Escape.decodeSingle 39 raw)
    | '\x60' => Scan.fail .commandLiteral start
    | ':' => Scan.colon space start
    | '?' => do
      match ← Scan.character? space with
      | some kind => return kind
      | none => Scan.punct start
    | '%' => do
      match ← Scan.percent? space start with
      | some kind => return kind
      | none => Scan.punct start
    | c =>
      if c == '/' && (!l.valueEnded || (l.commandArg space && next != some 61)) then
        Scan.regex start
      else if c == '<' && l.atHeredoc space then Scan.heredoc start
      else if b.isIdent then Scan.word
      else Scan.punct start

/-- Read one token from the text, in the text's own positions. -/
def scan : Scan Token := do
  let l ← get
  let gap := Gap.read l.preceding l.cursor l.resume false
  set { l with cursor := gap.cursor, resume := gap.resume }
  let start := gap.cursor.pos
  match gap.stop with
  | .openComment first => Scan.fail .unterminatedComment first
  | .lineEnd first => return { kind := .newline, span := ⟨first, start⟩, spaceBefore := gap.space }
  | .token =>
    match gap.cursor.peek with
    | none =>
      modify fun l => { l with finished := true }
      return { kind := .eof, span := .point start, spaceBefore := gap.space }
    | some b =>
      let kind ← kind b gap.space start
      let c := (← get).cursor
      return ⟨kind, ⟨start, c.pos⟩, gap.space, isGap c.peek⟩

/-- A fault as seen from the file around the text. -/
def relocateError (origin : Option Pos) (e : LexError) : LexError :=
  { e with span := origin.elim e.span e.span.relocate }

/-- Read one token from the text and keep what it means for the next. -/
def fresh : Scan Token := fun l =>
  match scan l with
  | .ok token l =>
    let token := { token with span := l.origin.elim token.span token.span.relocate }
    .ok token { l with preceding := .of token.kind, lastSpan := token.span }
  | .error e l => .error (relocateError l.origin e) l

def next : Scan Token := fun l =>
  match l.pushed with
  | some token => .ok token { l with pushed := none }
  | none => fresh l

def peek : Scan Token := do
  let token ← next
  modify fun l => { l with pushed := some token }
  return token

def pushBack (l : Lexer) (token : Token) : Lexer := { l with pushed := some token }

/-- The name last read, at `span`, is a local variable: it ends an expression. -/
def markLocal (l : Lexer) (span : Span) : Lexer :=
  if l.preceding == .ident && l.lastSpan == span then { l with preceding := .value } else l

/-- The next element of the stream, `none` behind its end. -/
def iterate (l : Lexer) : Option (Except LexError Token) × Lexer :=
  if l.finished && l.pushed.isNone then (none, l)
  else match next l with
    | .ok token l => (some (.ok token), l)
    | .error e l => (some (.error e), { l with finished := true })

/-- The first `fuel` tokens of the stream and the fault that cuts it short. -/
def collect : Nat → Lexer → List Token × Option LexError
  | 0, _ => ([], none)
  | fuel + 1, l =>
    match l.iterate with
    | (none, _) => ([], none)
    | (some (.error e), _) => ([], some e)
    | (some (.ok token), l) =>
      let (tokens, fault) := collect fuel l
      (token :: tokens, fault)

/-- A bound on the number of tokens: between two returns behind a heredoc each token takes a byte,
and no return leads to the same place twice. -/
def bound (l : Lexer) : Nat := (l.cursor.rest.length + 2) * (l.cursor.rest.length + 2)

/-- All tokens of the stream and the fault that cuts it short. -/
def tokens (l : Lexer) : List Token × Option LexError := collect l.bound l

end Lexer

/-- One line for each token of a text: its place, a tab, and the token. -/
def listTokens (source : String) : Except LexError String :=
  match (Lexer.ofString source).tokens with
  | (_, some e) => .error e
  | (tokens, none) =>
    .ok <| String.join <| tokens.map fun t => t.span.text ++ "\t" ++ t.kind.text ++ "\n"

end Garnet
