import Garnet.Token.Basic

/-!
# The state of reading tokens

What some bytes mean depends on the token before them: behind a value, `/` divides and `<<`
shifts; elsewhere they open a regular expression and a heredoc. `Preceding` is all that is kept of
the token before.

The body of a heredoc starts on the line behind its opener and is read at once; `Lexer.resume` keeps
the place behind it, where reading goes on once the opener's line ends. That place can lie before the
cursor, when a literal on the same line reaches into the body.
-/

namespace Garnet

/-! ### Cursors -/

/-- The rest of a text and where it starts. -/
structure Cursor where
  rest : Bytes
  pos : Pos
deriving DecidableEq, Repr

namespace Cursor

def start (src : Bytes) : Cursor := ⟨src, .origin⟩

def peek (c : Cursor) : Option Byte := c.rest.head?

/-- The byte `n` places ahead. -/
def peekAt (c : Cursor) (n : Nat) : Option Byte := c.rest[n]?

/-- Whether the text goes on with `s`. -/
def startsWith (c : Cursor) (s : String) : Bool := (utf8 s).isPrefixOf c.rest

def bump (c : Cursor) : Cursor :=
  match c.rest with
  | [] => c
  | b :: bs => ⟨bs, c.pos.next b⟩

/-- Pass over `n` bytes, or to the end. -/
def skip (c : Cursor) (n : Nat) : Cursor := ⟨c.rest.drop n, c.pos.advance (c.rest.take n)⟩

def run (c : Cursor) (p : Byte → Bool) : Bytes := c.rest.takeWhile p

/-- Pass over the longest run of bytes of a class. -/
def skipWhile (c : Cursor) (p : Byte → Bool) : Cursor := c.skip (c.run p).length

/-- The bytes read on the way from `c` to the later place `later`. -/
def upTo (c later : Cursor) : Bytes := c.rest.take (later.pos.offset - c.pos.offset)

theorem length_skip_le (c : Cursor) (n : Nat) : (c.skip n).rest.length ≤ c.rest.length := by
  simp [skip]

theorem length_bump_lt (c : Cursor) {b : Byte} {bs : Bytes} (h : c.rest = b :: bs) :
    c.bump.rest.length < c.rest.length := by
  simp [bump, h]

end Cursor

/-- What the token before means for the next one. -/
inductive Preceding where
  /-- The start of the text or of a statement. -/
  | start
  /-- A bare name: a value, or a command that awaits its arguments. -/
  | ident
  /-- A dot: a method name follows, never a reserved word. -/
  | dot
  /-- `def`: an operator may follow as a method name. -/
  | definition
  /-- Another token that ends an expression. -/
  | value
  /-- A line end behind it does not end the statement. -/
  | continues
  | other
deriving DecidableEq, Repr

/-- What a token of this kind means for the next one. -/
def Preceding.of (kind : TokenKind) : Preceding :=
  match kind with
  | .ident _ => .ident
  | .punct "." | .punct "&." => .dot
  | .keyword "def" => .definition
  | .newline | .punct ";" => .start
  | .keyword "and" | .keyword "or" | .keyword "not" => .continues
  | kind =>
    if kind.endsExpression then .value
    else match kind with
      | .punct _ => .continues
      | _ => .other

/-- A text while it is read. -/
structure Lexer where
  cursor : Cursor
  preceding : Preceding
  /-- The span of the last token read from the text. -/
  lastSpan : Span
  /-- A token that was handed back. -/
  pushed : Option Token
  /-- Where reading goes on behind the next line end, if not right there. -/
  resume : Option Cursor
  /-- The end of the text or a fault was reported. -/
  finished : Bool
  /-- Where the text stands in the file around it. -/
  origin : Option Pos
deriving DecidableEq, Repr

/-- Reading a token: it moves the lexer, also when it fails. -/
abbrev Scan := EStateM LexError Lexer

namespace Lexer

/-- The start of a text that stands at `origin` of some file. -/
def ofBytes (src : Bytes) (origin : Option Pos) : Lexer where
  cursor := .start src
  preceding := .start
  lastSpan := .zero
  pushed := none
  resume := none
  finished := false
  origin := origin

def ofString (source : String) (origin : Option Pos := none) : Lexer := ofBytes (utf8 source) origin

def valueEnded (l : Lexer) : Bool := l.preceding == .ident || l.preceding == .value

/-- The token before may be a command, and what follows looks like its argument: a blank stands in
front of the next byte and none behind it. -/
def commandArg (l : Lexer) (space : Bool) : Bool :=
  l.preceding == .ident && space && !isGap (l.cursor.peekAt 1)

end Lexer

/-! ### Steps of reading -/

namespace Scan

def peek : Scan (Option Byte) := return (← get).cursor.peek

def peekAt (n : Nat) : Scan (Option Byte) := return (← get).cursor.peekAt n

def position : Scan Pos := return (← get).cursor.pos

/-- Pass over `n` bytes. -/
def skip (n : Nat) : Scan Unit := modify fun l => { l with cursor := l.cursor.skip n }

def takeWhile (p : Byte → Bool) : Scan Bytes :=
  modifyGet fun l => (l.cursor.run p, { l with cursor := l.cursor.skipWhile p })

def skipAll : Scan Unit := modify fun l => { l with cursor := l.cursor.skip l.cursor.rest.length }

/-- Give up; the fault reaches from `start` to the cursor. -/
def fail {α : Type} (cause : LexCause) (start : Pos) : Scan α := do
  throw ⟨cause, ⟨start, ← position⟩⟩

end Scan

/-! ### Between tokens -/

/-- Whether the next line that is neither blank nor a comment goes on with a method call. -/
def continuesChain : Bytes → Bool
  | [] => false
  | b :: rest =>
    if b.isSpace then continuesChain rest
    else match b.toChar with
      | '#' => continuesChain (rest.dropWhile (· != 10))
      | '.' => rest.head? != some 46
      | '&' => rest.head? == some 46
      | _ => false
termination_by src => src.length
decreasing_by
  · simp
  · simpa using Nat.lt_succ_of_le (List.dropWhile_sublist _).length_le

/-- The length of a block comment up to the end of the line that closes it, after `n` bytes. -/
def commentLength (lineStart : Bool) (n : Nat) : Bytes → Option Nat
  | [] => none
  | b :: rest =>
    if lineStart && (utf8 "=end").isPrefixOf (b :: rest) then
      some (n + ((b :: rest).takeWhile (· != 10)).length)
    else commentLength (b == 10) (n + 1) rest

/-- How the stretch between two tokens ends. -/
inductive GapEnd where
  | token
  /-- With a line end that ends a statement and starts here. -/
  | lineEnd (start : Pos)
  /-- In a block comment that is not closed. -/
  | openComment (start : Pos)
deriving DecidableEq, Repr

/-- The stretch between two tokens: where it leads, and whether it holds any space. -/
structure Gap where
  cursor : Cursor
  resume : Option Cursor
  space : Bool
  stop : GapEnd
deriving DecidableEq, Repr

/-- Read over blanks, comments and the line ends that do not end a statement. A line end leads to
`resume` if that is set, and only once. -/
def Gap.read (preceding : Preceding) (c : Cursor) (resume : Option Cursor) (space : Bool) : Gap :=
  match _h : c.rest with
  | [] => ⟨c, resume, space, .token⟩
  | b :: rest =>
    match b.toChar with
    | ' ' | '\t' | '\r' => read preceding c.bump resume true
    | '\\' =>
      if rest.head? == some 10 then
        match resume with
        | some back => read preceding back none true
        | none => read preceding (c.bump.skip 1) none true
      else ⟨c, resume, space, .token⟩
    | '#' => read preceding (c.bump.skipWhile (· != 10)) resume space
    | '=' =>
      if c.pos.column == 1 && c.startsWith "=begin" then
        match commentLength false 0 rest with
        | some n => read preceding (c.bump.skip n) resume space
        | none => ⟨c.skip c.rest.length, resume, space, .openComment c.pos⟩
      else ⟨c, resume, space, .token⟩
    | '_' =>
      if c.pos.column == 1 && c.startsWith "__END__" && isGap (c.peekAt 7) then
        ⟨⟨[], { c.pos with offset := c.pos.offset + c.rest.length }⟩, resume, space, .token⟩
      else ⟨c, resume, space, .token⟩
    | '\n' =>
      let next := resume.getD c.bump
      if preceding == .start || preceding == .continues || continuesChain next.rest then
        match resume with
        | some back => read preceding back none true
        | none => read preceding c.bump none true
      else ⟨next, none, space, .lineEnd c.pos⟩
    | _ => ⟨c, resume, space, .token⟩
termination_by (resume.isSome.toNat, c.rest.length)
decreasing_by
  all_goals
    have hb : c.bump.rest.length < c.rest.length := c.length_bump_lt _h
    have hs (n : Nat) := c.bump.length_skip_le n
    simp only [Prod.lex_def, Option.isSome_some, Option.isSome_none, Cursor.skipWhile]
    grind

end Garnet
