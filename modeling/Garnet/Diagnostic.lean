import Garnet.Class.Table
import Garnet.Reading.State
import Garnet.Source.File

/-!
# Diagnostics

Why a program cannot be compiled, and how that is said. The first fault ends a compilation.
-/

namespace Garnet

/-- The part of a compilation that finds a fault. -/
inductive Phase where
  | lex
  | parse
  | transform
  | emit
  | io
deriving DecidableEq, Repr

def Phase.text : Phase → String
  | .lex => "lex"
  | .parse => "parse"
  | .transform => "transform"
  | .emit => "emit"
  | .io => "io"

/-- A fault in a program that could be read. -/
inductive TransformCause where
  | notAssignable (what : String)
  | attributeNotSymbol (kind : String)
  | unsupportedParameter (what : String)
  | keywordsAfterRest
  | yieldOutsideMethod
  | labelClash (clash : LabelClash)
  | definition (error : DefineError)
  | missingMethod (error : MissingMethod)
  | notAClass (path : String)
  | uninitializedConstant (name : String)
  | dynamicPath (path : String)
  | invalidClassName (name : String)
  | uncollectedMethod
  | superOutsideMethod
  | superInSingleton
  | superInModule
  | noEnvironmentPath (source target : String)
  | noBreakTarget
deriving DecidableEq, Repr

def TransformCause.message : TransformCause → String
  | .notAssignable what => "cannot assign to " ++ what
  | .attributeNotSymbol kind => kind ++ " expects symbols"
  | .unsupportedParameter what => "unsupported parameter " ++ what
  | .keywordsAfterRest => "keyword arguments after a rest parameter are not supported"
  | .yieldOutsideMethod => "yield called outside of a method"
  | .labelClash clash => clash.message
  | .definition error => error.message
  | .missingMethod error => error.message
  | .notAClass path => path ++ " is not a class or module"
  | .uninitializedConstant name => "uninitialized constant " ++ name
  | .dynamicPath path => "dynamic constant path " ++ path ++ " is not supported"
  | .invalidClassName name => "invalid class name " ++ name
  | .uncollectedMethod => "method definition was not collected"
  | .superOutsideMethod => "super called outside of a method"
  | .superInSingleton => "super in a singleton method of an object is not supported"
  | .superInModule => "super in a module method is not supported"
  | .noEnvironmentPath source target => "no environment path from " ++ source ++ " to " ++ target
  | .noBreakTarget => "break target not found"

/-- A fault that shows when code is written. -/
inductive EmitCause where
  | registersExhausted
  | undefinedVariable (name function : String)
  | notAssignable (name : String)
  | assignmentTarget
  | reassignedClass (label : String)
  | frameExpression
  | integerLiteral (text : String)
  | floatLiteral (text : String)
  | redo
  | unsupported (tag : Tag)
  | malformed (what : String)
  | splatNotAlone
  | breakTargetTwice (id : Int)
  | breakOutside
  | nextOutside
  | retryOutside
deriving DecidableEq, Repr

def EmitCause.message : EmitCause → String
  | .registersExhausted => "register pool exhausted"
  | .undefinedVariable name function => "undefined variable '" ++ name ++ "' in " ++ function
  | .notAssignable name => "cannot assign to " ++ name
  | .assignmentTarget => "invalid assignment target"
  | .reassignedClass label => "cannot reassign class " ++ label
  | .frameExpression => "unsupported frame expression"
  | .integerLiteral text => "invalid integer literal " ++ text
  | .floatLiteral text => "floating point literal " ++ text ++ " is not supported"
  | .redo => "redo is not supported"
  | .unsupported tag => "unsupported construct '" ++ tag.text ++ "'"
  | .malformed what => "malformed " ++ what
  | .splatNotAlone => "splat must be the only argument"
  | .breakTargetTwice id => "break target " ++ Numeral.decimal id ++ " emitted twice"
  | .breakOutside => "break outside of a loop or block"
  | .nextOutside => "next outside of a loop or block"
  | .retryOutside => "retry outside of a rescue clause"

/-- Why a compilation fails. -/
inductive CompileCause where
  | reading (cause : ParseCause)
  | transform (cause : TransformCause)
  | emit (cause : EmitCause)
  | io (cause : FileCause)
deriving DecidableEq, Repr

/-- A fault, where it is, and the lines that follow the message. -/
structure CompileError where
  cause : CompileCause
  span : Option Span
  detail : String := ""
deriving DecidableEq, Repr

namespace CompileError

def phase (e : CompileError) : Phase :=
  match e.cause with
  | .reading (.lexical _) => .lex
  | .reading _ => .parse
  | .transform _ => .transform
  | .emit _ => .emit
  | .io _ => .io

def message (e : CompileError) : String :=
  match e.cause with
  | .reading cause => cause.message
  | .transform cause => cause.message
  | .emit cause => cause.message
  | .io cause => cause.message

def text (e : CompileError) : String :=
  e.phase.text ++ " error" ++ (e.span.elim "" fun s => " at " ++ s.text) ++ ": " ++ e.message
    ++ e.detail

def ofParseError (e : ParseError) : CompileError :=
  { cause := .reading e.cause, span := some e.span, detail := e.detail }

def ofLexError (e : LexError) : CompileError := ofParseError (.ofLexError e)

def transform (cause : TransformCause) (span : Span) : CompileError :=
  { cause := .transform cause, span := some span }

def emit (cause : EmitCause) (span : Option Span) : CompileError := { cause := .emit cause, span }

def io (cause : FileCause) : CompileError := { cause := .io cause, span := none }

end CompileError

end Garnet
