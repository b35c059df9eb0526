-- SUMMARY: Engines: linked units, ready to run.
import Abacus.CodeUnit
import Abacus.Registry

/-!
# Engines

An engine is a unit whose calls have been bound to addresses. Nothing in it
changes afterwards, so what its code does depends on engines that are no
younger.
-/

namespace Abacus

/-- The place of a routine: an engine, and a declaration in its unit. -/
structure Address where
  engine   : Nat
  function : Nat
deriving DecidableEq, Repr

structure Engine where
  /-- The name of the unit it was built from. -/
  unit    : String
  symbols : List (String × Address)
  code    : List (Code.Routine (Link Address))
deriving Repr

namespace Engine

def address? (engine : Engine) (symbol : String) : Option Address :=
  engine.symbols.lookup symbol

def defines (engine : Engine) (symbol : String) : Bool :=
  (engine.address? symbol).isSome

def routine? (engine : Engine) (function : Nat) : Option (Code.Routine (Link Address)) :=
  engine.code.find? (·.id == function)

def text (engine : Engine) : String :=
  "Engine \x7b unit: \"" ++ engine.unit ++ "\", symbols: "
    ++ toString engine.symbols.length ++ " \x7d"

/-- The routine at an address. -/
def fetch? (engines : List Engine) (address : Address) : Option (Code.Routine (Link Address)) :=
  engines[address.engine]?.bind (·.routine? address.function)

/-- Runs linked code, with calls nested at most `depth` deep. -/
def run (engines : List Engine) : Nat → Link Address → List Float → Code.Exec Float
  | _, .host intrinsic, args => intrinsic.exec args
  | 0, .code _, _ => throw .tooDeep
  | depth + 1, .code address, args =>
    match fetch? engines address with
    | some routine => routine.exec (run engines depth) args
    | none => throw .stuck

/-- A depth no terminating run exceeds: there are no conditionals, so a routine
    that is called again inside its own call is called for ever. -/
def depthBound (engines : List Engine) : Nat :=
  engines.foldl (fun n engine => n + engine.code.length) 0

end Engine

-- ---------------------------------------------------------------------------
-- Linking
-- ---------------------------------------------------------------------------

namespace CodeUnit

/-- Where a call of the unit goes once it is the `k`-th engine: to a body of the
    unit itself, or to what its symbol resolves to. The error is the symbol. -/
def bind (u : CodeUnit) (k : Nat) (registry : Registry Address) (ref : Code.FuncRef) :
    Except String (Link Address) :=
  if u.defines ref.symbol then .ok (.code ⟨k, ref.id⟩)
  else match registry.resolve ref.symbol with
    | some link => .ok link
    | none => .error ref.symbol

/-- Links routines in order, up to the first symbol that resolves nowhere. -/
def linkRoutines (u : CodeUnit) (k : Nat) (registry : Registry Address) :
    List (Code.Routine Code.FuncRef) → Except String (List (Code.Routine (Link Address)))
  | [] => .ok []
  | r :: rs => do
    let r ← r.link (u.bind k registry)
    let rs ← u.linkRoutines k registry rs
    return r :: rs

/-- The addresses of the unit's bodies once it is the `k`-th engine. -/
def addresses (u : CodeUnit) (k : Nat) : List (String × Address) :=
  u.defined.map fun d => (d.symbol, ⟨k, d.id⟩)

/-- The unit as the `k`-th engine. -/
def link (u : CodeUnit) (k : Nat) (registry : Registry Address) : Except String Engine := do
  let code ← u.linkRoutines k registry u.routines
  return { unit := u.name, symbols := u.addresses k, code }

end CodeUnit

end Abacus
