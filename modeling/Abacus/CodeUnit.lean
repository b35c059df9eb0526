-- SUMMARY: Compilation units: tables of declarations, and the bodies among them.
import Abacus.Code.Basic
import Abacus.CompileError

/-!
# Compilation units

A unit lists the functions it declares, in the order they were first declared,
and the routines of those it defines, in the order they were defined.
-/

namespace Abacus

structure CodeUnit where
  name         : String
  declarations : List Declaration := []
  routines     : List (Code.Routine Code.FuncRef) := []
deriving Repr

namespace CodeUnit

/-- The `n`-th unit of a workspace, with nothing in it. -/
def numbered (n : Nat) : CodeUnit where
  name := "unit_" ++ toString n

def find? (u : CodeUnit) (symbol : String) : Option Declaration :=
  u.declarations.find? (·.symbol == symbol)

/-- The declarations that have a body. -/
def defined (u : CodeUnit) : List Declaration :=
  u.declarations.filter (·.hasBody)

/-- Whether the unit has a body for a symbol. -/
def defines (u : CodeUnit) (symbol : String) : Bool :=
  u.declarations.any fun d => d.symbol == symbol && d.hasBody

/-- Changes the declaration of a symbol. -/
def update (u : CodeUnit) (symbol : String) (f : Declaration → Declaration) : CodeUnit :=
  { u with declarations := u.declarations.map fun d => if d.symbol == symbol then f d else d }

/-- Declares a symbol. A symbol that is declared already keeps its entry, but for its
    linkage, which may become wider, and must have the same number of parameters. -/
def declare (u : CodeUnit) (name symbol : String) (arity : Nat) (linkage : Linkage) :
    Except CompileError Declaration × CodeUnit :=
  match u.find? symbol with
  | some d =>
    let d' := { d with linkage := d.linkage.merge linkage }
    let u' := u.update symbol fun _ => d'
    if d.arity = arity then (.ok d', u')
    else (.error (.backend ("incompatible declaration of '" ++ symbol ++ "'")), u')
  | none =>
    let d : Declaration := { name, symbol, arity, id := u.declarations.length, linkage }
    (.ok d, { u with declarations := u.declarations ++ [d] })

/-- Records that a symbol has a body. -/
def markDefined (u : CodeUnit) (symbol : String) : CodeUnit :=
  u.update symbol fun d => { d with hasBody := true }

/-- Adds the routine of a declared symbol. -/
def define (u : CodeUnit) (routine : Code.Routine Code.FuncRef) : CodeUnit :=
  { u.markDefined routine.symbol with routines := u.routines ++ [routine] }

end CodeUnit

end Abacus
