import Garnet.CommandLine.Request

/-!
# Running the compiler

The whole program, from its arguments to what it prints. The preludes and the main program are read in
order and compiled together. A fault in any of them leaves nothing written.
-/

namespace Garnet

/-- What a run of the program shows. -/
structure Outcome where
  status : UInt8 := 0
  stdout : String := ""
  stderr : String := ""

section

variable {m : Type → Type} [Monad m] [FileStore m]

def readUnit (path : String) : ExceptT CompileError m SourceUnit :=
  ExceptT.mk do
    match ← FileStore.read path with
    | .ok source => return .ok { name := path, source }
    | .error fault => return .error (.io (.unreadable path fault))

def writeResult (path text : String) : ExceptT CompileError m Unit :=
  ExceptT.mk do
    match ← FileStore.write path text with
    | .ok _ => return .ok ()
    | .error fault => return .error (.io (.unwritable path fault))

/-- Compile what is asked for; gives the text that is to be printed. -/
def compileFiles (r : Request) : ExceptT CompileError m String := do
  let units ← r.files.mapM readUnit
  let text ← ExceptT.mk (pure ((Session.mk r.options {}).compile units).1)
  match r.output with
  | none => return text
  | some path =>
    writeResult path text
    return ""

def runNotes (r : Request) : String :=
  String.join (r.files.map fun f => "parsing " ++ f ++ "\n")
    ++ "compiled " ++ Numeral.decimal r.files.length ++ " unit(s)\n"

def runCommand (args : List String) : m Outcome := do
  match Request.read args with
  | .error .help => return { stdout := helpText }
  | .error .version => return { stdout := versionText }
  | .error (.fault e) => return { status := 2, stderr := e.text }
  | .ok r =>
    match ← (compileFiles r).run with
    | .ok stdout => return { stdout, stderr := if r.has .verbose then runNotes r else "" }
    | .error e => return { status := 1, stderr := e.text ++ "\n" }

end

end Garnet
