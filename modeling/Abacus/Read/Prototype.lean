-- SUMMARY: Reading the name and parameters of a function.
import Abacus.Expr.Basic
import Abacus.Read.Reader

/-!
# Reading prototypes

A prototype is a name, an open parenthesis, any number of distinct parameter
names with nothing between them, and a closing parenthesis.
-/

namespace Abacus

namespace PrototypeReader

inductive State where
  | start
  | named (name : String)
  | inside (name : String) (params : List String)
  | complete (proto : Prototype)
deriving DecidableEq, Repr

def absorb? : State → Token → Option State
  | .start, .ident name => some (.named name)
  | .named name, .char c => if c = '(' then some (.inside name []) else none
  | .inside name params, .ident param =>
    if param ∈ params then none else some (.inside name (params ++ [param]))
  | .inside name params, .char c => if c = ')' then some (.complete ⟨name, params⟩) else none
  | _, _ => none

/-- In a parameter list, the token at fault tells a repeated name from anything
    else that does not belong there. -/
def concludeInside (name : String) (params : List String) : Option Token → Cause
  | some (.ident param) =>
    if param ∈ params then .duplicateParameter param name else .unclosedParameterList
  | _ => .unclosedParameterList

def conclude : State → Option Token → Except Cause Prototype
  | .start, _ => .error .missingFunctionName
  | .named _, _ => .error .missingParameterList
  | .inside name params, lookahead => .error (concludeInside name params lookahead)
  | .complete proto, _ => .ok proto

end PrototypeReader

/-- Reads one prototype. -/
def Prototype.reader : Reader PrototypeReader.State Prototype where
  start := .start
  absorb? := PrototypeReader.absorb?
  conclude := PrototypeReader.conclude

end Abacus
