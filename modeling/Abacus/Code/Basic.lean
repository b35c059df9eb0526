-- SUMMARY: Straight-line code of one function.
import Abacus.Declaration

/-!
# Code

The code of a function is a list of instructions, each of which gives one value.
Values are numbered: first the parameters, then the results of the instructions
in order. Operands are such numbers.

Calls name their callee by a type `κ`. Code comes out of the emitter with
`FuncRef`s, which say what is called; linking replaces them by where it is.
-/

namespace Abacus.Code

inductive Arith where
  | add
  | sub
  | mul
deriving DecidableEq, Repr

inductive Instr (κ : Type) where
  | const (x : Float)
  | arith (op : Arith) (a b : Nat)
  /-- One if `a` is less than `b`, else zero, as an integer. -/
  | less (a b : Nat)
  /-- The integer `a` in a wider type. -/
  | extend (a : Nat)
  /-- The integer `a` as a float. -/
  | convert (a : Nat)
  | call (callee : κ) (args : List Nat)
deriving Repr

/-- A call's view of its callee. -/
structure FuncRef where
  /-- Counts the calls of the function, an outer call before those in its
      arguments. -/
  index     : Nat
  /-- The callee's declaration in the unit. -/
  id        : Nat
  symbol    : String
  arity     : Nat
  /-- The callee's body was known to be one of this unit when the call was emitted. -/
  colocated : Bool
deriving DecidableEq, Repr

/-- A reference to a declared function. -/
def FuncRef.to (index : Nat) (decl : Declaration) : FuncRef where
  index     := index
  id        := decl.id
  symbol    := decl.symbol
  arity     := decl.arity
  colocated := decl.linkage.isFinal

structure Routine (κ : Type) where
  /-- The function's own declaration in the unit. -/
  id     : Nat
  symbol : String
  arity  : Nat
  code   : List (Instr κ)
  /-- The value that is returned. -/
  result : Nat
deriving Repr

variable {κ κ' ε : Type}

/-- The callee of a call. -/
def Instr.callee? : Instr κ → Option κ
  | .call callee _ => some callee
  | _ => none

/-- The callees of a function, in the order they are called. -/
def Routine.callees (routine : Routine κ) : List κ :=
  routine.code.filterMap Instr.callee?

/-- Replaces the callee of a call. -/
def Instr.link (resolve : κ → Except ε κ') : Instr κ → Except ε (Instr κ')
  | .const x => .ok (.const x)
  | .arith op a b => .ok (.arith op a b)
  | .less a b => .ok (.less a b)
  | .extend a => .ok (.extend a)
  | .convert a => .ok (.convert a)
  | .call callee args => (resolve callee).map (.call · args)

/-- Replaces callees in order, up to the first that cannot be resolved. -/
def linkAll (resolve : κ → Except ε κ') : List (Instr κ) → Except ε (List (Instr κ'))
  | [] => .ok []
  | i :: is => do
    let i ← i.link resolve
    let is ← linkAll resolve is
    return i :: is

def Routine.link (resolve : κ → Except ε κ') (routine : Routine κ) :
    Except ε (Routine κ') := do
  let code ← linkAll resolve routine.code
  return { routine with code }

end Abacus.Code
