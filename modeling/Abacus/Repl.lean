-- SUMMARY: Interactive reading: lines gathered into statements and run.
import Abacus.History
import Abacus.Session
import Abacus.Text.Typed
import Abacus.Text.Utf8

/-!
# Interactive reading

Lines are gathered until they are no longer incomplete and then run together.
Each line is asked for with a prompt, which shows whether it continues the ones
before. At the end of input, what was left unfinished still gets its error.
-/

namespace Abacus.Repl

open Build

structure State where
  /-- The lines gathered so far, each with its line end. -/
  pending : String := ""
  history : History := {}
deriving Repr

def prompt (s : State) : String :=
  if s.pending.isEmpty then "ready> " else "  ...> "

/-- Writes the prompt for the next line. -/
def ask (s : State) : Build Unit :=
  writeOut (Text.utf8 (prompt s))

/-- What a line makes of the lines gathered before it. -/
inductive Gathered where
  /-- A blank line where nothing was gathered; it is skipped. -/
  | blank
  /-- More lines are needed. -/
  | unfinished (pending : String)
  /-- A text to be run. -/
  | ready (text : String)
deriving DecidableEq, Repr

def gather (pending line : String) : Gathered :=
  if pending.isEmpty && Text.isBlankText line then .blank
  else
    let text := pending ++ line ++ "\n"
    if Program.isIncomplete .standard text then .unfinished text else .ready text

/-- Takes one line, and runs what has been gathered unless it is unfinished. -/
def feed (s : State) (line : String) : Build State :=
  match gather s.pending line with
  | .blank => return s
  | .unfinished pending => return { s with pending }
  | .ready text => do
    let _ ← Session.run text
    return { pending := "", history := s.history.add (Text.trimEnd text) }

/-- Runs what is left at the end of input. -/
def finish (s : State) : Build Unit :=
  if Text.isBlankText s.pending then return ()
  else do
    let _ ← Session.run s.pending

/-- How reading ended. -/
inductive End where
  /-- The input ended. -/
  | done (s : State)
  /-- A line was not valid text. -/
  | unreadable
deriving Repr

/-- The report of a line that is not valid text. -/
def unreadableText : String :=
  "failed to read line: stream did not contain valid UTF-8"

/-- Reads and runs lines, given without their line ends. -/
def run (s : State) : List (List UInt8) → Build End
  | [] => do
    ask s
    finish s
    return .done s
  | line :: lines => do
    ask s
    match Text.ofUtf8? line with
    | none => return .unreadable
    | some line =>
      let s ← feed s (Text.typed line)
      run s lines

end Abacus.Repl
