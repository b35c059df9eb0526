-- SUMMARY: The command line: what is asked for, and what it comes to.
import Abacus.Expr.Json
import Abacus.Repl

/-!
# The command line

Arguments ask for one of three commands, with settings before or after its name. A
command works on the content of a file or of standard input and comes to a
transcript and a status. Reading files is left to the caller.
-/

namespace Abacus.CommandLine

/-- What to work on. -/
inductive Command where
  /-- Statements from standard input, interactively if it is a terminal. -/
  | repl
  /-- Runs the statements of a file. -/
  | run (file : String)
  /-- Shows the items of a file. -/
  | ast (file : String)
deriving DecidableEq, Repr

structure Invocation where
  command : Command := .repl
  config  : Config := {}
deriving DecidableEq, Repr

inductive Request where
  | version
  | invoke (invocation : Invocation)
deriving DecidableEq, Repr

-- ---------------------------------------------------------------------------
-- Settings
-- ---------------------------------------------------------------------------

def optLevel? : String → Option OptLevel
  | "none" => some .none
  | "speed" => some .speed
  | "speed-and-size" => some .speedAndSize
  | _ => none

inductive Setting where
  | optLevel (level : OptLevel)
  | printCode
  | verbose
deriving DecidableEq, Repr

/-- The settings given before a command, or after it. -/
structure Settings where
  optLevel  : Option OptLevel := none
  printCode : Bool := false
  verbose   : Bool := false
deriving DecidableEq, Repr

namespace Settings

/-- One more setting; none if it has been given already. -/
def add? (s : Settings) : Setting → Option Settings
  | .optLevel level => if s.optLevel.isSome then none else some { s with optLevel := level }
  | .printCode => if s.printCode then none else some { s with printCode := true }
  | .verbose => if s.verbose then none else some { s with verbose := true }

/-- The settings before a command and those after it together; an
    optimization level after the command counts. -/
def config (outer inner : Settings) : Config where
  optLevel := (inner.optLevel.or outer.optLevel).getD ({} : Config).optLevel
  printCode := outer.printCode || inner.printCode
  verbose := outer.verbose || inner.verbose

end Settings

-- ---------------------------------------------------------------------------
-- Arguments
-- ---------------------------------------------------------------------------

/-- What an argument, or a part of one, stands for. -/
inductive Mark where
  | setting (s : Setting)
  | version
  /-- The name of a command, or what it works on. -/
  | word (text : String)
  /-- What a command works on: a word that cannot be a name. -/
  | operand (text : String)
  | invalid
deriving DecidableEq, Repr

namespace Mark

def ofOptLevel (level : String) : Mark :=
  match optLevel? level with
  | some level => .setting (.optLevel level)
  | none => .invalid

/-- A letter after a single dash. -/
def ofLetter : Char → Mark
  | 'v' => .setting .verbose
  | 'V' => .version
  | _ => .invalid

/-- A name after two dashes, together with a value if it takes one. -/
def ofName (name : String) : Mark :=
  if name = "print-ir" then .setting .printCode
  else if name = "verbose" then .setting .verbose
  else if name = "version" then .version
  else
    let head := "opt-level=".toList
    if head.isPrefixOf name.toList then ofOptLevel (String.ofList (name.toList.drop head.length))
    else .invalid

/-- What one argument stands for. Letters share a dash; a dash alone is a word. -/
def ofArgument (argument : String) : List Mark :=
  match argument.toList with
  | '-' :: '-' :: name => [ofName (String.ofList name)]
  | '-' :: c :: letters => (c :: letters).map ofLetter
  | _ => [.word argument]

/-- What arguments stand for. After two dashes there are only operands. -/
def ofArguments : List String → List Mark
  | [] => []
  | "--" :: rest => rest.map .operand
  | ["--opt-level"] => [.invalid]
  | "--opt-level" :: level :: rest => ofOptLevel level :: ofArguments rest
  | argument :: rest => ofArgument argument ++ ofArguments rest

end Mark

/-- Reads what follows the name of a command: settings, and what it works on. -/
def readOperands (s : Settings) : List Mark → Option (Settings × List String)
  | [] => some (s, [])
  | .setting x :: rest => (s.add? x).bind (readOperands · rest)
  | .word text :: rest | .operand text :: rest =>
    (readOperands s rest).map fun (s, texts) => (s, text :: texts)
  | .version :: _ | .invalid :: _ => none

/-- The command of a name and of what it works on. No file has an empty name. -/
def command? : String → List String → Option Command
  | "repl", [] => some .repl
  | "run", [file] => if file.isEmpty then none else some (.run file)
  | "ast", [file] => if file.isEmpty then none else some (.ast file)
  | _, _ => none

/-- Reads a whole command line; none if it makes no sense. -/
def readRequest (s : Settings) : List Mark → Option Request
  | [] => some (.invoke ⟨.repl, s.config {}⟩)
  | .setting x :: rest => (s.add? x).bind (readRequest · rest)
  | .version :: _ => some .version
  | .word name :: rest => do
    let (inner, texts) ← readOperands {} rest
    let command ← command? name texts
    return .invoke ⟨command, s.config inner⟩
  | .operand _ :: _ | .invalid :: _ => none

/-- What the arguments of a command line ask for. -/
def parse (arguments : List String) : Option Request :=
  readRequest {} (Mark.ofArguments arguments)

-- ---------------------------------------------------------------------------
-- Reports
-- ---------------------------------------------------------------------------

inductive Status where
  | exited (code : Nat)
  /-- Stopped without a status of its own. -/
  | aborted
deriving DecidableEq, Repr

structure Report where
  transcript : Transcript
  status     : Status
deriving DecidableEq, Repr

def versionText : String :=
  "kaleido 0.1.0\n"

/-- The report of a failure, and of what caused it. -/
def failureText (message : String) : Option String → String
  | none => "Error: " ++ message ++ "\n"
  | some cause => "Error: " ++ message ++ "\n\nCaused by:\n    " ++ cause ++ "\n"

def failure (message : String) (cause : Option String) : Report :=
  ⟨{ err := failureText message cause }, .exited 1⟩

/-- A report of text on standard output. -/
def success (out : String) : Report :=
  ⟨{ out := Text.utf8 out }, .exited 0⟩

/-- Why bytes are not text. -/
def invalidText : String :=
  "stream did not contain valid UTF-8"

/-- The text that was read, or why there is none. -/
def decode (content : Except String (List UInt8)) : Except String String :=
  content.bind fun bytes =>
    match Text.ofUtf8? bytes with
    | some text => .ok text
    | none => .error invalidText

-- ---------------------------------------------------------------------------
-- Commands
-- ---------------------------------------------------------------------------

/-- A workspace to start from. -/
def start (config : Config) : World :=
  { workspace := { config } }

/-- Runs a script to its end and counts its errors. -/
def script (text : String) : Build Nat := do
  let summary ← Session.run text
  let w ← Build.workspace
  Build.note ("[jit] " ++ toString summary.statements ++ " statement(s), "
    ++ toString summary.errors ++ " error(s); " ++ toString w.unitCount ++ " unit(s), "
    ++ toString w.engineCount ++ " engine(s)")
  return if summary.errors = 0 then 0 else 1

/-- The report of a computation that gives a status. -/
def reportOf (config : Config) (build : Build Nat) : Report :=
  match build (start config) with
  | .ok code w => ⟨w.transcript, .exited code⟩
  | .error _ w => ⟨w.transcript, .aborted⟩

/-- The items of a text, a line of JSON for each. -/
def showItems (text : String) : Report :=
  match Program.parse text with
  | .ok items => success (String.join (items.map fun i => i.json ++ "\n"))
  | .error e => failure ("parse error: " ++ e.text) none

/-- What interactive reading comes to on the lines of standard input. -/
def interactive (config : Config) (lines : List (List UInt8)) : Report :=
  match Repl.run {} lines (start config) with
  | .ok (.done _) w => ⟨w.transcript, .exited 0⟩
  | .ok .unreadable w =>
    let err := w.transcript.err ++ failureText Repl.unreadableText none
    ⟨{ w.transcript with err }, .exited 1⟩
  | .error _ w => ⟨w.transcript, .aborted⟩

/-- What a command comes to on the content of its file or of standard input. -/
def Invocation.report (invocation : Invocation) (content : Except String (List UInt8)) : Report :=
  match invocation.command with
  | .repl =>
    match decode content with
    | .ok text => reportOf invocation.config (script text)
    | .error cause => failure "failed to read stdin" (some cause)
  | .run file =>
    match decode content with
    | .ok text => reportOf invocation.config (script text)
    | .error cause => failure ("failed to read " ++ file) (some cause)
  | .ast file =>
    match decode content with
    | .ok text => showItems text
    | .error cause => failure ("failed to read " ++ file) (some cause)

end Abacus.CommandLine
