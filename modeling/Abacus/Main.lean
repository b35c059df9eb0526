-- SUMMARY: The program: reads arguments, files and standard input, and writes reports.
import Abacus.CommandLine

/-!
# The program

Everything that is decided is decided by `Abacus.CommandLine`. What is left is to
read what a command works on, to write what it reports, and, on a terminal, to
read one line at a time.
-/

namespace Abacus.Main

/-- Writes a transcript to where it belongs. -/
def flush (transcript : Transcript) : IO Unit := do
  let out ← IO.getStdout
  out.write ⟨transcript.out.toArray⟩
  out.flush
  let err ← IO.getStderr
  err.putStr transcript.err
  err.flush

/-- The exit code of a status; 134 is that of a process that was aborted. -/
def exitCode : CommandLine.Status → UInt32
  | .exited code => code.toUInt32
  | .aborted => 134

def finish (report : CommandLine.Report) : IO UInt32 := do
  flush report.transcript
  return exitCode report.status

/-- Why a file could not be read. -/
def cause : IO.Error → String
  | .noFileOrDirectory .. => "No such file or directory (os error 2)"
  | .inappropriateType _ code _ =>
    if code = 21 then "Is a directory (os error 21)" else "Not a directory (os error 20)"
  | .permissionDenied .. => "Permission denied (os error 13)"
  | e => toString e

/-- The content of a file, or why it could not be read. -/
def content (read : IO ByteArray) : IO (Except String (List UInt8)) := do
  try
    return .ok (← read).data.toList
  catch e =>
    return .error (cause e)

/-- All of standard input. -/
partial def readAll (stream : IO.FS.Stream) (sofar : ByteArray) : IO ByteArray := do
  let chunk ← stream.read 65536
  if chunk.isEmpty then return sofar else readAll stream (sofar ++ chunk)

-- ---------------------------------------------------------------------------
-- The terminal
-- ---------------------------------------------------------------------------

def historyFile : IO String := do
  match ← IO.getEnv "HOME" with
  | some home => return home ++ "/.kaleido_history"
  | none => return ".kaleido_history"

def loadHistory (file : String) : IO History := do
  try
    return .ofFile (← IO.FS.readFile file)
  catch _ =>
    return {}

def saveHistory (file : String) (history : History) : IO Unit := do
  match history.toFile? with
  | none => return ()
  | some text =>
    try
      IO.FS.writeFile file text
    catch _ =>
      return ()

/-- Runs one step of a session and writes what it wrote. The result is the exit
    code if the step was the last. -/
def step {α : Type} (w : World) (build : Build α) : IO (Except UInt32 (α × World)) := do
  match build { w with transcript := {} } with
  | .ok a w =>
    flush w.transcript
    return .ok (a, w)
  | .error _ w =>
    flush w.transcript
    return .error (exitCode .aborted)

/-- Reads and runs lines from a terminal until its end of input. -/
partial def converse (stdin : IO.FS.Stream) (file : String) (w : World) (s : Repl.State) :
    IO UInt32 := do
  match ← step w (Repl.ask s) with
  | .error code => return code
  | .ok (_, w) =>
    let line ← try pure (some (← stdin.getLine)) catch _ => pure none
    match line.map Text.lines with
    | none =>
      flush { err := CommandLine.failureText Repl.unreadableText none }
      return 1
    | some [] =>
      match ← step w (Repl.finish s) with
      | .error code => return code
      | .ok _ =>
        saveHistory file s.history
        return 0
    | some (line :: _) =>
      match ← step w (Repl.feed s (Text.typed line)) with
      | .error code => return code
      | .ok (s, w) => converse stdin file w s

-- ---------------------------------------------------------------------------
-- Commands
-- ---------------------------------------------------------------------------

def invoke (invocation : CommandLine.Invocation) : IO UInt32 := do
  match invocation.command with
  | .run file => finish (invocation.report (← content (IO.FS.readBinFile file)))
  | .ast file => finish (invocation.report (← content (IO.FS.readBinFile file)))
  | .repl =>
    let stdin ← IO.getStdin
    if ← stdin.isTty then
      let file ← historyFile
      let history ← loadHistory file
      converse stdin file (CommandLine.start invocation.config) { history }
    else
      finish (invocation.report (← content (readAll stdin .empty)))

end Abacus.Main

def main (arguments : List String) : IO UInt32 := do
  match Abacus.CommandLine.parse arguments with
  | some .version => Abacus.Main.finish (Abacus.CommandLine.success Abacus.CommandLine.versionText)
  | some (.invoke invocation) => Abacus.Main.invoke invocation
  | none =>
    Abacus.Main.flush { err := "error: invalid arguments\n" }
    return 2
