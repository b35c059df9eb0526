-- SUMMARY: Declaring functions and finalizing units.
import Abacus.Build.Basic

/-!
# Units of a workspace

A unit is opened by the first declaration that needs one. It is finalized when
the address of one of its functions is needed and no engine has it, or when that
is asked for. The next declaration opens a new unit.
-/

namespace Abacus.Build

-- ---------------------------------------------------------------------------
-- Declaring
-- ---------------------------------------------------------------------------

/-- The open unit, opened if there is none. -/
def openUnit : Build CodeUnit := do
  let w ← workspace
  match w.current with
  | some u => return u
  | none =>
    let u := CodeUnit.numbered w.nextUnit
    setWorkspace { w with current := some u, nextUnit := w.nextUnit + 1 }
    note ("[jit] opened " ++ u.name)
    return u

/-- Replaces the open unit. -/
def setCurrent (u : CodeUnit) : Build Unit := do
  setWorkspace { ← workspace with current := some u }

/-- Declares a symbol in the open unit. -/
def declare (name symbol : String) (arity : Nat) (linkage : Linkage) : Build Declaration := do
  let u ← openUnit
  let (result, u) := u.declare name symbol arity linkage
  setCurrent u
  match result with
  | .ok decl => return decl
  | .error e => reject e

/-- Records that a symbol of the open unit has a body. -/
def markDefined (symbol : String) : Build Unit := do
  let u ← openUnit
  setCurrent (u.markDefined symbol)

/-- The declaration of a symbol. One that is found in a closed unit is declared
    again in the open unit, so that code of that unit can refer to it. -/
def findDeclaration (symbol : String) : Build (Option Declaration) := do
  let w ← workspace
  match w.currentDeclaration? symbol with
  | some decl => return some decl
  | none =>
    match w.closedDeclaration? symbol with
    | none => return none
    | some found => return some (← declare found.name symbol found.arity .imported)

/-- The first objection among earlier declarations to a body for their symbol:
    one that has a body, or another number of parameters. -/
def objection? (name : String) (arity : Nat) : List Declaration → Option CompileError
  | [] => none
  | d :: ds =>
    if d.hasBody then some (.duplicateDefinition name)
    else if d.arity ≠ arity then some (.arityMismatch name d.arity arity)
    else objection? name arity ds

/-- Checks that a body may be given for a symbol. -/
def checkDefinition (name symbol : String) (arity : Nat) : Build Unit := do
  match objection? name arity ((← workspace).declarations symbol) with
  | some e => reject e
  | none => return ()

/-- Handles an extern. Where the symbol is declared with the same number of
    parameters, nothing is left to do. -/
def declareExternal (proto : Prototype) : Build Declaration := do
  let symbol := Symbol.legalize proto.name
  match (← workspace).declaration? symbol with
  | some decl =>
    if decl.arity = proto.arity then return decl
    else reject (.arityMismatch proto.name decl.arity proto.arity)
  | none => declare proto.name symbol proto.arity .imported

/-- The symbol of a function; every anonymous one gets a symbol of its own. -/
def symbolFor (name : String) : Build String := do
  let w ← workspace
  let (symbol, supply) := w.supply.symbolFor name
  setWorkspace { w with supply }
  return symbol

-- ---------------------------------------------------------------------------
-- Finalizing
-- ---------------------------------------------------------------------------

/-- Closes the open unit and links it. The result is the number of the new
    engine, if a unit was open. -/
def finalize : Build (Option Nat) := do
  let w ← workspace
  match w.current with
  | none => return none
  | some u =>
    match u.link w.engines.length w.registry with
    | .error symbol => unresolved symbol
    | .ok engine =>
      setWorkspace { w with
        current  := none
        closed   := w.closed ++ [u]
        engines  := w.engines ++ [engine]
        registry := w.registry.publish engine.symbols }
      note ("[jit] finalized " ++ u.name ++ " (" ++ toString engine.symbols.length
        ++ " function(s)); " ++ toString (w.engines.length + 1) ++ " engine(s)")
      return some w.engines.length

/-- The address of a symbol. The open unit is finalized if the body is there. -/
def address (symbol : String) : Build Address := do
  let w ← workspace
  match w.address? symbol with
  | some address => return address
  | none =>
    if (w.currentDeclaration? symbol).any (·.hasBody) then
      let _ ← finalize
      match (← workspace).address? symbol with
      | some address => return address
      | none => reject (.unknownSymbol symbol)
    else reject (.unknownSymbol symbol)

/-- A function that some unit defines. -/
structure Handle where
  /-- The source name, empty for an anonymous function. -/
  name   : String
  symbol : String
  arity  : Nat
deriving DecidableEq, Repr

/-- Runs a function without parameters. -/
def evaluate (handle : Handle) : Build Float := do
  if handle.arity ≠ 0 then
    reject (.arityMismatch handle.name handle.arity 0)
  else
    let address ← address handle.symbol
    let engines := (← workspace).engines
    exec (Engine.run engines (Engine.depthBound engines) (.code address) [])

end Abacus.Build
