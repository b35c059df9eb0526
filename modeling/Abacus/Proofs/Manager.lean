-- SUMMARY: The operations of a workspace whose units are kept in parallel tables.
import Abacus.Proofs.OneDefinition
import Abacus.Proofs.UnitTables

/-!
# Managers

A manager is a workspace that keeps its open unit in tables, and of a closed unit the
entries and the order only: the module went into the engine. It has the operations of
`Build`, each of which goes through the tables one after the other.

Callees are kept by their numbers, and code is emitted against what the module says of
these numbers then. A backend checks the code and translates it, and may refuse either
way; the function is declared by then.
-/

namespace Abacus

structure Manager where
  config     : Config := {}
  supply     : Symbol.Supply := {}
  /-- The unit that accepts declarations, if one is open. -/
  opened     : Option OpenUnit := none
  /-- Closed units, oldest first. -/
  units      : List UnitTable := []
  /-- The engine of each closed unit, in the same order. -/
  engines    : List Engine := []
  /-- What the engines published. -/
  registry   : Registry Address := {}
  /-- The number of the next unit to be opened. -/
  nextUnit   : Nat := 0
  transcript : Transcript := {}

namespace Manager

/-- Closed units, and the open one. -/
def unitCount (m : Manager) : Nat :=
  m.units.length + (if m.opened.isSome then 1 else 0)

/-- The tables of all units. -/
def tables (m : Manager) : List UnitTable :=
  m.units ++ m.opened.toList.map (·.table)

def openEntry? (m : Manager) (symbol : String) : Option UnitTable.Entry :=
  m.opened.bind (·.table.find? symbol)

/-- The entry of a symbol in the oldest closed unit that has one. -/
def closedEntry? (m : Manager) (symbol : String) : Option UnitTable.Entry :=
  m.units.findSome? (·.find? symbol)

/-- Every entry of a symbol, the open unit's first. -/
def entries (m : Manager) (symbol : String) : List UnitTable.Entry :=
  (m.openEntry? symbol).toList ++ m.units.filterMap (·.find? symbol)

/-- The address of a symbol in the oldest engine that defines it. -/
def address? (m : Manager) (symbol : String) : Option Address :=
  m.engines.findSome? (·.address? symbol)

end Manager

abbrev Manage := EStateM Fault Manager

namespace Manage

/-! ## Writing and stopping -/

/-- Writes bytes to standard output. -/
def writeOut (bytes : List UInt8) : Manage Unit :=
  modify fun m => { m with transcript.out := m.transcript.out ++ bytes }

/-- Writes text to standard error. -/
def writeErr (text : String) : Manage Unit :=
  modify fun m => { m with transcript.err := m.transcript.err ++ text }

/-- Writes a line to standard error if the manager is verbose. -/
def note (line : String) : Manage Unit := do
  if (← get).config.verbose then writeErr (line ++ "\n")

def reject {α : Type} (error : CompileError) : Manage α :=
  throw (.rejected error)

/-- Reports a symbol that resolves nowhere, and stops. -/
def unresolved {α : Type} (symbol : String) : Manage α := do
  writeErr (unresolvedText symbol)
  throw (.unresolved symbol)

/-- Runs linked code and writes what it writes. -/
def exec {α : Type} (run : Code.Exec α) : Manage α :=
  match run.run [] with
  | .ok (value, bytes) => do
    writeOut bytes
    return value
  | .error reason => throw (.halted reason)

/-! ## Declaring -/

/-- The open unit, opened if there is none. -/
def openUnit : Manage OpenUnit := do
  let m ← get
  match m.opened with
  | some c => return c
  | none =>
    let c := OpenUnit.numbered m.nextUnit
    set { m with opened := some c, nextUnit := m.nextUnit + 1 }
    note ("[jit] opened " ++ c.table.name)
    return c

/-- Replaces the open unit. -/
def setOpened (c : OpenUnit) : Manage Unit :=
  modify ({ · with opened := some c })

/-- Declares a symbol in the open unit. -/
def declare (name symbol : String) (arity : Nat) (linkage : Linkage) : Manage UnitTable.Entry := do
  let c ← openUnit
  let (result, c) := c.declare name symbol arity linkage
  setOpened c
  match result with
  | .ok entry => return entry
  | .error e => reject e

/-- The entry of a symbol. One that is found in a closed unit is declared again in the
    open unit. -/
def findDeclaration (symbol : String) : Manage (Option UnitTable.Entry) := do
  let m ← get
  match m.openEntry? symbol with
  | some entry => return some entry
  | none =>
    match m.closedEntry? symbol with
    | none => return none
    | some found => return some (← declare found.name symbol found.arity .imported)

/-- The first objection among earlier entries to a body for their symbol. -/
def objection? (name : String) (arity : Nat) : List UnitTable.Entry → Option CompileError
  | [] => none
  | e :: es =>
    if e.hasBody then some (.duplicateDefinition name)
    else if e.arity ≠ arity then some (.arityMismatch name e.arity arity)
    else objection? name arity es

/-- Checks that a body may be given for a symbol. -/
def checkDefinition (name symbol : String) (arity : Nat) : Manage Unit := do
  match objection? name arity ((← get).entries symbol) with
  | some e => reject e
  | none => return ()

/-- Handles an extern. Where the symbol is declared with the same number of
    parameters, nothing is left to do. -/
def declareExternal (proto : Prototype) : Manage UnitTable.Entry := do
  let symbol := Symbol.legalize proto.name
  let m ← get
  match (m.openEntry? symbol).or (m.closedEntry? symbol) with
  | some entry =>
    if entry.arity = proto.arity then return entry
    else reject (.arityMismatch proto.name entry.arity proto.arity)
  | none => declare proto.name symbol proto.arity .imported

/-- The symbol of a function; every anonymous one gets a symbol of its own. -/
def symbolFor (name : String) : Manage String := do
  let m ← get
  let (symbol, supply) := m.supply.symbolFor name
  set { m with supply }
  return symbol

/-! ## Finalizing -/

/-- Closes the open unit and links it. Its module is the engine's from then on. -/
def finalize : Manage (Option Nat) := do
  let m ← get
  match m.opened with
  | none => return none
  | some c =>
    match c.link m.engines.length m.registry with
    | .error symbol => unresolved symbol
    | .ok engine =>
      set { m with
        opened   := none
        units    := m.units ++ [c.table]
        engines  := m.engines ++ [engine]
        registry := m.registry.publish engine.symbols }
      note ("[jit] finalized " ++ c.table.name ++ " (" ++ toString engine.symbols.length
        ++ " function(s)); " ++ toString (m.engines.length + 1) ++ " engine(s)")
      return some m.engines.length

/-- The address of a symbol. The open unit is finalized if the body is there. -/
def address (symbol : String) : Manage Address := do
  let m ← get
  match m.address? symbol with
  | some address => return address
  | none =>
    if (m.openEntry? symbol).any (·.hasBody) then
      let _ ← finalize
      match (← get).address? symbol with
      | some address => return address
      | none => reject (.unknownSymbol symbol)
    else reject (.unknownSymbol symbol)

/-- Runs a function without parameters. -/
def evaluate (handle : Build.Handle) : Manage Float := do
  if handle.arity ≠ 0 then
    reject (.arityMismatch handle.name handle.arity 0)
  else
    let address ← address handle.symbol
    let engines := (← get).engines
    exec (Engine.run engines (Engine.depthBound engines) (.code address) [])

/-! ## Generating -/

/-- Callees found so far, by source name. -/
abbrev Callees := List (String × Nat)

mutual

/-- Checks the variables, operators and calls of an expression, and collects the numbers
    of callees. -/
def resolve (proto : Prototype) (own : String) (callees : Callees) : Expr → Manage Callees
  | .number _ => return callees
  | .var name => if name ∈ proto.params then return callees else reject (.unknownVariable name)
  | .binary op lhs rhs => do
    let callees ← resolve proto own callees lhs
    let callees ← resolve proto own callees rhs
    if Build.isOperator op then return callees else reject (.invalidOperator op)
  | .call callee args => do
    let symbol := Symbol.legalize callee
    if symbol = own then
      if proto.arity = args.length then resolveAll proto own callees args
      else reject (.arityMismatch callee proto.arity args.length)
    else
      match ← findDeclaration symbol with
      | none => reject (.unknownFunction callee)
      | some entry =>
        if entry.arity = args.length then resolveAll proto own ((callee, entry.id) :: callees) args
        else reject (.arityMismatch callee entry.arity args.length)

/-- Checks arguments from left to right. -/
def resolveAll (proto : Prototype) (own : String) (callees : Callees) :
    List Expr → Manage Callees
  | [] => return callees
  | arg :: args => do
    let callees ← resolve proto own callees arg
    resolveAll proto own callees args

end

/-- The callees a function may name in its own body. -/
def withOwn (proto : Prototype) (id : Nat) (callees : Callees) : Callees :=
  if proto.isAnonymous then callees else (proto.name, id) :: callees

/-- Shows the code of a function if the manager is set to. -/
def showCode (proto : Prototype) (routine : Code.Routine Code.FuncRef) : Manage Unit := do
  if (← get).config.printCode then
    writeErr ("; " ++ routine.symbol ++ " (" ++ proto.shownName ++ ")\n" ++ routine.text ++ "\n")

/-- Declares a function and emits its code. -/
def draft (function : Function) : Manage (String × Code.Routine Code.FuncRef) := do
  let proto := function.proto
  let symbol ← symbolFor proto.name
  checkDefinition proto.name symbol proto.arity
  let callees ← resolve proto symbol [] function.body
  let entry ← declare proto.name symbol proto.arity .exported
  let view := (← openUnit).code.view
  let scope : Code.Scope :=
    ⟨proto.params, (withOwn proto entry.id callees).map fun c => (c.1, view c.2)⟩
  match Code.Routine.ofExpr (view entry.id) scope function.body with
  | .error e => reject e
  | .ok routine => return (symbol, routine)

/-- Has the code of a declared function checked and translated, and records its body. -/
def install (backend : Backend) (proto : Prototype) (symbol : String)
    (routine : Code.Routine Code.FuncRef) : Manage Build.Handle := do
  match backend.verify routine with
  | some message => reject (.verifier symbol message)
  | none =>
    showCode proto routine
    match (← openUnit).define backend symbol routine with
    | .error e => reject e
    | .ok c =>
      setOpened c
      return { name := proto.name, symbol, arity := proto.arity }

/-- Compiles a function into the open unit. -/
def generate (backend : Backend) (function : Function) : Manage Build.Handle := do
  let (symbol, routine) ← draft function
  install backend function.proto symbol routine

/-! ## Runs -/

def perform (backend : Backend) : Build.Op → Manage Unit
  | .symbolFor name => discard (symbolFor name)
  | .generate function => discard (generate backend function)
  | .declareExternal proto => discard (declareExternal proto)
  | .findDeclaration symbol => discard (findDeclaration symbol)
  | .checkDefinition name symbol arity => checkDefinition name symbol arity
  | .openUnit => discard openUnit
  | .finalize => discard finalize
  | .address symbol => discard (address symbol)
  | .evaluate handle => discard (evaluate handle)

/-- The manager that a computation leaves, whether it succeeds or fails. -/
def left {α : Type} (x : Manage α) (m : Manager) : Manager :=
  match x m with
  | .ok _ m' => m'
  | .error _ m' => m'

end Manage

/-- The managers that operations can lead to, and the declaring of any symbol in the open
    unit, with any number of parameters and any linkage. -/
inductive Manager.Arranged (backend : Backend) : Manager → Prop where
  | start (config : Config) : Arranged backend { config }
  | perform {m : Manager} (op : Build.Op) (h : Arranged backend m) :
      Arranged backend (Manage.left (Manage.perform backend op) m)
  | declare {m : Manager} (name symbol : String) (arity : Nat) (linkage : Linkage)
      (h : Arranged backend m) :
      Arranged backend (Manage.left (Manage.declare name symbol arity linkage) m)

end Abacus
