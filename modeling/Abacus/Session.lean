-- SUMMARY: Statements handled one after another in one workspace.
import Abacus.Build.Generate
import Abacus.Read.Program

/-!
# Sessions

A session handles the statements of a text in order. Definitions and externs
last for the rest of the session; a bare expression is run at once. A statement
that is refused or rejected is reported and counted, and the session goes on. A
call that cannot be linked ends it.
-/

namespace Abacus.Session

open Build

/-- What an accepted item came to. -/
inductive Reply where
  | defined (name : String)
  | declared (name : String)
  | evaluated (value : Float)
deriving DecidableEq, Repr

def Reply.text : Reply → String
  | .defined name => "Defined " ++ name
  | .declared name => "Declared extern " ++ name
  | .evaluated value => "Evaluated to " ++ Decimal.valueText value

inductive StatementError where
  | parse (error : ParseError)
  | compile (error : CompileError)
deriving DecidableEq, Repr

def StatementError.text : StatementError → String
  | .parse e => e.text
  | .compile e => e.text

/-- What a statement came to. -/
abbrev Outcome := Except StatementError Reply

/-- Compiles one item and, for a bare expression, runs it. -/
def handle : Item → Build Reply
  | .definition function => do
    let compiled ← generate function
    return .defined compiled.name
  | .external proto => do
    let _ ← declareExternal proto
    return .declared proto.name
  | .expression function => do
    let compiled ← generate function
    let value ← evaluate compiled
    return .evaluated value

/-- Handles one statement. To be rejected is an outcome, to be stuck is not. -/
def outcome : Program.Statement → Build Outcome
  | .fault e => return .error (.parse e)
  | .item item => fun w =>
    match handle item.value w with
    | .ok reply w => .ok (.ok reply) w
    | .error (.rejected e) w => .ok (.error (.compile e)) w
    | .error fault w => .error fault w

/-- Values go to standard output, errors to standard error, and the other
    replies to standard error if the workspace is verbose. -/
def report : Outcome → Build Unit
  | .ok (.evaluated value) => writeOut (Text.utf8 ((Reply.evaluated value).text ++ "\n"))
  | .ok reply => note reply.text
  | .error e => writeErr ("error: " ++ e.text ++ "\n")

/-- Handles and reports statements in order. -/
def outcomes : List Program.Statement → Build (List Outcome)
  | [] => return []
  | s :: ss => do
    let o ← outcome s
    report o
    let os ← outcomes ss
    return o :: os

structure Summary where
  statements : Nat
  errors     : Nat
deriving DecidableEq, Repr

/-- Whether a statement was refused or rejected. -/
def Outcome.isError : Outcome → Bool
  | .ok _ => false
  | .error _ => true

def Summary.ofOutcomes (os : List Outcome) : Summary where
  statements := os.length
  errors     := os.countP Outcome.isError

/-- Runs every statement of a text. -/
def run (text : String) : Build Summary := do
  let os ← outcomes (Program.statements .standard text)
  return .ofOutcomes os

end Abacus.Session
