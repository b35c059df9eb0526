-- SUMMARY: Expressions to straight-line code.
import Abacus.Code.Basic
import Abacus.CompileError
import Abacus.Expr.Basic

/-!
# Emission

An expression becomes instructions in evaluation order: operands and arguments
from left to right, then the operation or call. A variable is the value of its
parameter and needs no instruction. Where a parameter name occurs more than
once, the last one counts.
-/

namespace Abacus.Code

/-- The names an expression may use. -/
structure Scope where
  params  : List String
  /-- Callees by source name; the first entry for a name counts. -/
  callees : List (String × Declaration)
deriving Repr

/-- The value of a variable. -/
def Scope.value? (scope : Scope) (name : String) : Option Nat :=
  (scope.params.reverse.idxOf? name).map (scope.params.length - 1 - ·)

def Scope.callee? (scope : Scope) (name : String) : Option Declaration :=
  scope.callees.lookup name

/-- Code under construction. -/
structure Draft where
  code : List (Instr FuncRef) := []
  /-- The number of calls met so far. -/
  refs : Nat := 0
deriving Repr

abbrev Emit := StateT Draft (Except CompileError)

/-- Adds an instruction; its value comes after the parameters and the values of
    the instructions before it. -/
def push (scope : Scope) (i : Instr FuncRef) : Emit Nat := do
  let draft ← get
  set { draft with code := draft.code ++ [i] }
  return scope.params.length + draft.code.length

/-- The next reference, to a given function. -/
def refer (decl : Declaration) : Emit FuncRef := do
  let draft ← get
  set { draft with refs := draft.refs + 1 }
  return .to draft.refs decl

/-- A comparison gives an integer, which is turned into a float. -/
def emitOperator (scope : Scope) (op : Char) (a b : Nat) : Emit Nat :=
  match op with
  | '+' => push scope (.arith .add a b)
  | '-' => push scope (.arith .sub a b)
  | '*' => push scope (.arith .mul a b)
  | '<' => do
    let flag ← push scope (.less a b)
    let wide ← push scope (.extend flag)
    push scope (.convert wide)
  | other => throw (.invalidOperator other)

mutual

/-- Emits an expression; the result is the number of its value. -/
def emit (scope : Scope) : Expr → Emit Nat
  | .number x => push scope (.const x)
  | .var name =>
    match scope.value? name with
    | some value => pure value
    | none => throw (.unknownVariable name)
  | .binary op lhs rhs => do
    let a ← emit scope lhs
    let b ← emit scope rhs
    emitOperator scope op a b
  | .call callee args =>
    match scope.callee? callee with
    | some decl => do
      let ref ← refer decl
      let values ← emitAll scope args
      push scope (.call ref values)
    | none => throw (.unknownFunction callee)

/-- Emits arguments from left to right. -/
def emitAll (scope : Scope) : List Expr → Emit (List Nat)
  | [] => return []
  | arg :: args => do
    let value ← emit scope arg
    let values ← emitAll scope args
    return value :: values

end

/-- The routine of a declared function with the given body. -/
def Routine.ofExpr (decl : Declaration) (scope : Scope) (body : Expr) :
    Except CompileError (Routine FuncRef) := do
  let (result, draft) ← (emit scope body).run {}
  return { id := decl.id, symbol := decl.symbol, arity := scope.params.length,
           code := draft.code, result }

end Abacus.Code
