import Garnet.Literal.Interpolation
import Garnet.Literal.Numeral
import Garnet.Source.Text

/-!
# Tokens

The words of the language: reserved words, punctuation, names by their sigil, and literals with their
value. A token knows its span and whether white space stands on either side of it.
-/

namespace Garnet

/-! ### Reserved words and punctuation -/

namespace Keyword

def all : List String :=
  ["alias", "and", "begin", "break", "case", "class", "def", "defined?", "do", "else", "elsif",
    "end", "ensure", "false", "for", "if", "in", "module", "next", "nil", "not", "or", "redo",
    "rescue", "retry", "return", "self", "super", "then", "true", "undef", "unless", "until", "when",
    "while", "yield", "__FILE__", "__LINE__"]

/-- The reserved words that close a list of statements. -/
def terminators : List String := ["end", "else", "elsif", "when", "in", "rescue", "ensure", "then", "do"]

/-- The reserved words that are values or end one. -/
def values : List String := ["end", "self", "nil", "true", "false", "__FILE__", "__LINE__"]

end Keyword

/-- Operators and punctuation. No entry stands behind one that is a beginning of it, so the first
entry that a text starts with is the longest. -/
def punctuation : List String :=
  ["**=", "<=>", "===", "...", "<<=", ">>=", "&&=", "||=", "&.", "**", "==", "!=", ">=", "<=", "&&",
    "||", "<<", ">>", "=~", "!~", "+=", "-=", "*=", "/=", "%=", "|=", "&=", "^=", "::", "..", "=>",
    "->", "+", "-", "*", "/", "%", "=", "<", ">", "!", "&", "|", "^", "~", "?", ":", ",", ".", ";",
    "(", ")", "[", "]", "\x7b", "\x7d"]

/-- Operators that are method names, after `def` and after the colon of a symbol. -/
def operatorNames : List String :=
  ["[]=", "[]", "<=>", "===", "==", "=~", "!=", "!~", "**", "+@", "-@", "<<", ">>", "<=", ">=", "+",
    "-", "*", "/", "%", "<", ">", "!", "&", "|", "^", "~"]

/-! ### Tokens -/

/-- What a token is, with the text or value it holds. -/
inductive TokenKind where
  /-- A local variable or method name, with a trailing `?` or `!` if it has one. -/
  | ident (name : String)
  /-- A capitalised name. -/
  | const (name : String)
  /-- An instance variable, with its `@`. -/
  | ivar (name : String)
  /-- A class variable, with its `@@`. -/
  | cvar (name : String)
  /-- A global variable, with its `$`. -/
  | gvar (name : String)
  | keyword (word : String)
  /-- A name followed by a colon: a hash key or a keyword argument. -/
  | label (name : String)
  /-- An integer literal that fits a 64-bit word. -/
  | integer (value : Int)
  /-- A longer integer literal, as a decimal numeral. -/
  | bigInteger (numeral : String)
  | float (numeral : String)
  | str (bytes : Bytes)
  /-- A string with at least one part of code. -/
  | interp (parts : List StrPart)
  | symbol (name : String)
  | words (list : List String)
  | symbols (list : List String)
  | regex (source flags : String)
  | punct (text : String)
  | newline
  | eof
deriving DecidableEq, Repr

namespace TokenKind

def name : TokenKind → String
  | .ident _ => "identifier"
  | .const _ => "constant"
  | .ivar _ => "instance variable"
  | .cvar _ => "class variable"
  | .gvar _ => "global variable"
  | .keyword w => w
  | .label _ => "label"
  | .integer _ | .bigInteger _ => "integer"
  | .float _ => "float"
  | .str _ | .interp _ => "string"
  | .symbol _ => "symbol"
  | .words _ | .symbols _ => "word list"
  | .regex .. => "regex"
  | .punct p => p
  | .newline => "newline"
  | .eof => "end of input"

/-- Whether an expression can end with this token. -/
def endsExpression : TokenKind → Bool
  | .punct p => [")", "]", "\x7d"].contains p
  | .keyword w => Keyword.values.contains w
  | .label _ | .newline | .eof => false
  | _ => true

/-- The token as a message or a listing shows it. -/
def text : TokenKind → String
  | .ident s | .const s | .ivar s | .cvar s | .gvar s => s
  | .keyword w => w
  | .label s => s ++ ":"
  | .integer n => Numeral.decimal n
  | .bigInteger s | .float s => s
  | .str bytes => Text.quote (Utf8.decode bytes)
  | .interp parts => "\"<" ++ Numeral.decimal parts.length ++ " parts>\""
  | .symbol s => ":" ++ s
  | .words ws => "%w[" ++ " ".intercalate ws ++ "]"
  | .symbols ws => "%i[" ++ " ".intercalate ws ++ "]"
  | .regex source flags => "/" ++ source ++ "/" ++ flags
  | .punct p => p
  | .newline => "\\n"
  | .eof => "<eof>"

end TokenKind

/-- A token in its place. -/
structure Token where
  kind : TokenKind
  span : Span
  /-- White space stands right before the token. -/
  spaceBefore : Bool
  /-- White space or the end of the text follows. -/
  spaceAfter : Bool := false
deriving DecidableEq, Repr

/-! ### Faults -/

/-- Why a text cannot be read as tokens. -/
inductive LexCause where
  | unterminatedComment
  | commandLiteral
  | namelessVariable (sigil : Char)
  | numeralWithoutDigits
  | invalidDigit (radix : Nat)
  | unterminatedLiteral
  | unterminatedRegex
  | interpolatedSymbol
  | unterminatedHeredocName
  | unterminatedHeredoc (name : String)
  | unexpected (c : Char)
  | quote (cause : QuoteCause)
deriving DecidableEq, Repr

def LexCause.message : LexCause → String
  | .unterminatedComment => "unterminated =begin comment"
  | .commandLiteral => "command literals are not supported"
  | .namelessVariable c => s!"'{c}' without a variable name"
  | .numeralWithoutDigits => "numeric literal without digits"
  | .invalidDigit radix => s!"invalid digit for base {radix} literal"
  | .unterminatedLiteral => "unterminated literal"
  | .unterminatedRegex => "unterminated regex"
  | .interpolatedSymbol => "interpolated symbols are not supported"
  | .unterminatedHeredocName => "unterminated heredoc identifier"
  | .unterminatedHeredoc name => s!"unterminated heredoc {name}"
  | .unexpected c => "unexpected character " ++ Text.quoteChar c
  | .quote cause => cause.message

/-- A fault in the text, and the stretch where it is. -/
structure LexError where
  cause : LexCause
  span : Span
deriving DecidableEq, Repr

def LexError.message (e : LexError) : String := e.cause.message

def LexError.text (e : LexError) : String := e.message ++ " at " ++ e.span.text

end Garnet
