-- SUMMARY: The workspace, and computations that change it.
import Abacus.Config
import Abacus.Engine
import Abacus.Expr.Basic
import Abacus.Symbol

/-!
# Workspaces

A workspace holds the unit that accepts declarations at the moment, the units
closed before it and their engines. Lists grow at the end only.

Building is a computation on the workspace that may also write. When it fails,
what it changed and wrote before stays.
-/

namespace Abacus

structure Workspace where
  config   : Config := {}
  supply   : Symbol.Supply := {}
  /-- The unit that accepts declarations, if one is open. -/
  current  : Option CodeUnit := none
  /-- Closed units, oldest first. -/
  closed   : List CodeUnit := []
  /-- The engine of each closed unit, in the same order. -/
  engines  : List Engine := []
  /-- What the engines published. -/
  registry : Registry Address := {}
  /-- The number of the next unit to be opened. -/
  nextUnit : Nat := 0
deriving Repr

namespace Workspace

/-- Closed units, and the open one. -/
def unitCount (w : Workspace) : Nat :=
  w.closed.length + (if w.current.isSome then 1 else 0)

def engineCount (w : Workspace) : Nat :=
  w.engines.length

def currentDeclaration? (w : Workspace) (symbol : String) : Option Declaration :=
  w.current.bind (·.find? symbol)

/-- The declaration of a symbol in the oldest closed unit that has one. -/
def closedDeclaration? (w : Workspace) (symbol : String) : Option Declaration :=
  w.closed.findSome? (·.find? symbol)

/-- The declaration in the open unit, or else in the oldest closed unit. -/
def declaration? (w : Workspace) (symbol : String) : Option Declaration :=
  (w.currentDeclaration? symbol).or (w.closedDeclaration? symbol)

/-- Every declaration of a symbol, the open unit's first. -/
def declarations (w : Workspace) (symbol : String) : List Declaration :=
  (w.currentDeclaration? symbol).toList ++ w.closed.filterMap (·.find? symbol)

/-- The address of a symbol in the oldest engine that defines it. -/
def address? (w : Workspace) (symbol : String) : Option Address :=
  w.engines.findSome? (·.address? symbol)

end Workspace

/-- What was written to standard output and to standard error. -/
structure Transcript where
  out : List UInt8 := []
  err : String := ""
deriving DecidableEq, Repr

/-- Why building stops. -/
inductive Fault where
  /-- The statement is dropped; a session goes on. -/
  | rejected (error : CompileError)
  /-- A call cannot be linked; nothing goes on. -/
  | unresolved (symbol : String)
  /-- Running linked code came to no end. -/
  | halted (reason : Code.Halt)
deriving DecidableEq, Repr

structure World where
  workspace  : Workspace := {}
  transcript : Transcript := {}
deriving Repr

abbrev Build := EStateM Fault World

namespace Build

def workspace : Build Workspace :=
  return (← get).workspace

def setWorkspace (w : Workspace) : Build Unit :=
  modify ({ · with workspace := w })

/-- Writes bytes to standard output. -/
def writeOut (bytes : List UInt8) : Build Unit :=
  modify fun s => { s with transcript.out := s.transcript.out ++ bytes }

/-- Writes text to standard error. -/
def writeErr (text : String) : Build Unit :=
  modify fun s => { s with transcript.err := s.transcript.err ++ text }

/-- Writes a line to standard error if the workspace is verbose. -/
def note (line : String) : Build Unit := do
  if (← workspace).config.verbose then writeErr (line ++ "\n")

def reject {α : Type} (error : CompileError) : Build α :=
  throw (.rejected error)

/-- Reports a symbol that resolves nowhere, and stops. -/
def unresolved {α : Type} (symbol : String) : Build α := do
  writeErr (unresolvedText symbol)
  throw (.unresolved symbol)

/-- Runs linked code and writes what it writes. -/
def exec {α : Type} (run : Code.Exec α) : Build α :=
  match run.run [] with
  | .ok (value, bytes) => do
    writeOut bytes
    return value
  | .error reason => throw (.halted reason)

-- ---------------------------------------------------------------------------
-- What each step does to the world
-- ---------------------------------------------------------------------------

variable {α β : Type}

/-- A step that succeeds hands its result and its world to the next. -/
theorem bind_ok {x : Build α} {f : α → Build β} {s s' : World} {a : α} (h : x s = .ok a s') :
    (x >>= f) s = f a s' := by
  simp only [bind, EStateM.bind, h]

/-- A step that fails ends the computation, and its world stays. -/
theorem bind_error {x : Build α} {f : α → Build β} {s s' : World} {e : Fault}
    (h : x s = .error e s') : (x >>= f) s = .error e s' := by
  simp only [bind, EStateM.bind, h]

/-- A computation in two steps succeeds if both do. -/
theorem bind_eq_ok {x : Build α} {f : α → Build β} {s s'' : World} {b : β} :
    (x >>= f) s = .ok b s'' ↔ ∃ a s', x s = .ok a s' ∧ f a s' = .ok b s'' := by
  cases h : x s with
  | ok a s' =>
    rw [bind_ok h]
    constructor
    · intro hf
      exact ⟨a, s', rfl, hf⟩
    · rintro ⟨_, _, ⟨⟩, hf⟩
      exact hf
  | error e s' =>
    rw [bind_error h]
    exact ⟨nofun, nofun⟩

@[simp] theorem pure_apply (a : α) (s : World) : (pure a : Build α) s = .ok a s := rfl

@[simp] theorem workspace_apply (s : World) : workspace s = .ok s.workspace s := rfl

@[simp] theorem setWorkspace_apply (w : Workspace) (s : World) :
    setWorkspace w s = .ok () { s with workspace := w } := rfl

@[simp] theorem writeOut_apply (bytes : List UInt8) (s : World) :
    writeOut bytes s = .ok () { s with transcript.out := s.transcript.out ++ bytes } := rfl

@[simp] theorem writeErr_apply (text : String) (s : World) :
    writeErr text s = .ok () { s with transcript.err := s.transcript.err ++ text } := rfl

@[simp] theorem reject_apply (e : CompileError) (s : World) :
    (reject e : Build α) s = .error (.rejected e) s := rfl

/-- A note leaves the workspace and standard output as they are. -/
theorem note_apply (line : String) (s : World) :
    ∃ t, note line s = .ok () { s with transcript := t } ∧ t.out = s.transcript.out := by
  unfold note
  rw [bind_ok (workspace_apply s)]
  split
  · exact ⟨_, rfl, rfl⟩
  · exact ⟨s.transcript, rfl, rfl⟩

end Build

end Abacus
