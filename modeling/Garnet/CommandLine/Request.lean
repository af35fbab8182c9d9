import Garnet.Session

/-!
# Requests on the command line

A source file, with switches before and after it. A switch with a value takes the next argument, or
what follows `=`, or for a one-letter switch the rest of its argument. After `--` nothing is a switch.
-/

namespace Garnet

/-- What an argument with a dash asks for. -/
inductive Switch where
  | output
  | prelude
  | dumpTokens
  | dumpAst
  | dumpTransformed
  | noFold
  | verbose
  | help
  | version
deriving DecidableEq, Repr

namespace Switch

def all : List Switch :=
  [.output, .prelude, .dumpTokens, .dumpAst, .dumpTransformed, .noFold, .verbose, .help, .version]

def long : Switch → String
  | .output => "output"
  | .prelude => "prelude"
  | .dumpTokens => "dump-tokens"
  | .dumpAst => "dump-ast"
  | .dumpTransformed => "dump-transformed"
  | .noFold => "no-fold"
  | .verbose => "verbose"
  | .help => "help"
  | .version => "version"

def short? : Switch → Option Char
  | .output => some 'o'
  | .verbose => some 'v'
  | .help => some 'h'
  | .version => some 'V'
  | _ => none

/-- What stands for the value in a message; `none` if there is no value. -/
def placeholder? : Switch → Option String
  | .output => some "<OUTPUT>"
  | .prelude => some "<PRELUDE>"
  | _ => none

def purpose : Switch → String
  | .output => "Output file"
  | .prelude => "Prelude file (repeatable)"
  | .dumpTokens => "Print the token stream and stop"
  | .dumpAst => "Print the parsed syntax tree and stop"
  | .dumpTransformed => "Print the lifted functions and stop"
  | .noFold => "Disable constant folding"
  | .verbose => "Log each compiler pass"
  | .help => "Print help"
  | .version => "Print version"

def text (s : Switch) : String := "--" ++ s.long ++ (s.placeholder?.map (" " ++ ·)).getD ""

def ofLong? (name : String) : Option Switch := all.find? (·.long == name)

def ofShort? (c : Char) : Option Switch := all.find? (·.short? == some c)

end Switch

/-- Arguments that are no proper request. -/
inductive UsageError where
  | unexpected (arg : String) (isSwitch : Bool)
  | valueMissing (what : String)
  | repeated (s : Switch)
  | unwantedValue (value : String) (s : Switch)
  | fileMissing (used : List Switch)
deriving DecidableEq, Repr

/-- What the arguments ask for. -/
structure Request where
  file : Option String := none
  output : Option String := none
  preludes : List String := []
  /-- The switches in the order of their first use. -/
  used : List Switch := []

/-- Why reading arguments ends before they do. -/
inductive Stop where
  | help
  | version
  | fault (e : UsageError)

namespace Request

def has (r : Request) (s : Switch) : Bool := r.used.contains s

/-- How to compile. The earliest form that is asked for is shown. -/
def options (r : Request) : CompileOptions where
  folding := !r.has .noFold
  dump :=
    if r.has .dumpTokens then some .tokens
    else if r.has .dumpAst then some .ast
    else if r.has .dumpTransformed then some .transformed
    else none

def files (r : Request) : List String := r.preludes ++ r.file.toList

/-- Use a switch. Only a prelude can be given again. -/
def use (r : Request) (s : Switch) : Except Stop Request :=
  if s = .help then .error .help
  else if s = .version then .error .version
  else if !r.has s then .ok { r with used := r.used ++ [s] }
  else if s = .prelude then .ok r
  else .error (.fault (.repeated s))

def setValue (r : Request) (s : Switch) (value : String) : Except Stop Request := do
  if value.isEmpty then throw (.fault (.valueMissing s.text))
  let r ← r.use s
  return if s = .output then { r with output := some value }
    else { r with preludes := r.preludes ++ [value] }

def setFile (r : Request) (arg : String) : Except Stop Request :=
  if r.file.isSome then .error (.fault (.unexpected arg false))
  else if arg.isEmpty then .error (.fault (.valueMissing "<FILE>"))
  else .ok { r with file := some arg }

/-- Read one-letter switches; gives the one whose value is to follow. -/
def readShorts (r : Request) : List Char → Except Stop (Request × Option Switch)
  | [] => .ok (r, none)
  | c :: cs =>
    match Switch.ofShort? c with
    | none => .error (.fault (.unexpected (String.ofList ['-', c]) true))
    | some s =>
      if s.placeholder?.isNone then do readShorts (← r.use s) cs
      else
        match cs with
        | [] => .ok (r, some s)
        | '=' :: value => do return (← r.setValue s (String.ofList value), none)
        | value => do return (← r.setValue s (String.ofList value), none)

/-- Read a long switch; gives it if its value is to follow. -/
def readLong (r : Request) (arg : String) : Except Stop (Request × Option Switch) := do
  let body := arg.toList.drop 2
  let name := String.ofList (body.takeWhile (· != '='))
  let value := match body.dropWhile (· != '=') with
    | _ :: v => some (String.ofList v)
    | [] => none
  match Switch.ofLong? name with
  | none => throw (.fault (.unexpected ("--" ++ name) true))
  | some s =>
    match s.placeholder?, value with
    | some _, some v => return (← r.setValue s v, none)
    | some _, none => return (r, some s)
    | none, some v => throw (.fault (.unwantedValue v s))
    | none, none => return (← r.use s, none)

def readSwitch (r : Request) (arg : String) : Except Stop (Request × Option Switch) :=
  if arg.startsWith "--" then r.readLong arg else r.readShorts (arg.toList.drop 1)

/-- A switch still waits for its value, and another argument with a dash follows. -/
def interrupted (r : Request) (s : Switch) (arg : String) : Stop :=
  match r.readSwitch arg with
  | .error (.fault (.unexpected arg true)) => .fault (.unexpected arg true)
  | _ => .fault (.valueMissing s.text)

/-- Read arguments, while `waiting` waits for its value. -/
def readAll (r : Request) (waiting : Option Switch) : List String → Except Stop Request
  | [] =>
    match waiting with
    | some s => .error (.fault (.valueMissing s.text))
    | none => .ok r
  | arg :: rest =>
    match waiting with
    | some s =>
      if arg == "--" then .error (.fault (.valueMissing s.text))
      else if arg.startsWith "-" && arg != "-" then .error (r.interrupted s arg)
      else do readAll (← r.setValue s arg) none rest
    | none =>
      if arg == "--" then rest.foldlM setFile r
      else if arg.startsWith "-" && arg != "-" then do
        let (r, waiting) ← r.readSwitch arg
        readAll r waiting rest
      else do readAll (← r.setFile arg) none rest

def read (args : List String) : Except Stop Request := do
  let r ← readAll {} none args
  if r.file.isNone then throw (.fault (.fileMissing r.used))
  return r

end Request

/-! ### Texts -/

/-- How the program is called with the given switches. -/
def usageText (switches : List String) : String :=
  "Usage: rubyc " ++ " ".intercalate (switches ++ ["<FILE>"]) ++ "\n"

namespace UsageError

def message : UsageError → String
  | .unexpected arg _ => "unexpected argument '" ++ arg ++ "' found"
  | .valueMissing what => "a value is required for '" ++ what ++ "' but none was supplied"
  | .repeated s => "the argument '" ++ s.text ++ "' cannot be used multiple times"
  | .unwantedValue value s =>
    "unexpected value '" ++ value ++ "' for '" ++ s.text ++ "' found; no more were expected"
  | .fileMissing _ => "the following required arguments were not provided:\n  <FILE>"

/-- What helps: how to pass such an argument, and how the program is called. -/
def advice : UsageError → String
  | .unexpected arg isSwitch =>
    (if isSwitch then "  tip: to pass '" ++ arg ++ "' as a value, use '-- " ++ arg ++ "'\n\n" else "")
      ++ usageText ["[OPTIONS]"] ++ "\n"
  | .valueMissing _ => ""
  | .repeated _ => usageText ["[OPTIONS]"] ++ "\n"
  | .unwantedValue _ s => usageText [s.text] ++ "\n"
  | .fileMissing used => usageText (used.map Switch.text) ++ "\n"

def text (e : UsageError) : String :=
  "error: " ++ e.message ++ "\n\n" ++ e.advice ++ "For more information, try '--help'.\n"

end UsageError

def Switch.helpLine (s : Switch) : String :=
  let short := match s.short? with
    | some c => String.ofList ['-', c, ',', ' ']
    | none => "    "
  let forms := short ++ s.text
  "  " ++ forms ++ String.ofList (List.replicate (25 - forms.length) ' ') ++ s.purpose ++ "\n"

def helpText : String :=
  usageText ["[OPTIONS]"] ++ "\nArguments:\n  <FILE>  The source file to compile\n\nOptions:\n"
    ++ String.join (Switch.all.map Switch.helpLine)

def versionText : String := "rubyc 0.1.0\n"

end Garnet
