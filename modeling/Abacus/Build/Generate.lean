-- SUMMARY: Functions to routines of the open unit.
import Abacus.Build.Unit
import Abacus.Code.Emit
import Abacus.Code.Printer
import Abacus.Expr.Printer

/-!
# Generating functions

A function is generated in two passes. The first resolves every name in its
body and finds whatever is wrong with the statement. The second declares the
function and emits its code into the open unit.
-/

namespace Abacus.Build

/-- Callees found so far, by source name. -/
abbrev Callees := List (String × Declaration)

/-- The operators that code can be emitted for. -/
def isOperator (op : Char) : Bool :=
  op == '+' || op == '-' || op == '*' || op == '<'

mutual

/-- Checks the variables, operators and calls of an expression. In a call the
    callee comes first, then the number of arguments, then the arguments. The
    function itself may be called before it is declared. -/
def resolve (proto : Prototype) (own : String) (callees : Callees) : Expr → Build Callees
  | .number _ => return callees
  | .var name => if name ∈ proto.params then return callees else reject (.unknownVariable name)
  | .binary op lhs rhs => do
    let callees ← resolve proto own callees lhs
    let callees ← resolve proto own callees rhs
    if isOperator op then return callees else reject (.invalidOperator op)
  | .call callee args => do
    let symbol := Symbol.legalize callee
    if symbol = own then
      if proto.arity = args.length then resolveAll proto own callees args
      else reject (.arityMismatch callee proto.arity args.length)
    else
      match ← findDeclaration symbol with
      | none => reject (.unknownFunction callee)
      | some decl =>
        if decl.arity = args.length then resolveAll proto own ((callee, decl) :: callees) args
        else reject (.arityMismatch callee decl.arity args.length)

/-- Checks arguments from left to right. -/
def resolveAll (proto : Prototype) (own : String) (callees : Callees) :
    List Expr → Build Callees
  | [] => return callees
  | arg :: args => do
    let callees ← resolve proto own callees arg
    resolveAll proto own callees args

end

/-- The callees a function may name in its own body. -/
def withOwn (proto : Prototype) (decl : Declaration) (callees : Callees) : Callees :=
  if proto.isAnonymous then callees else (proto.name, decl) :: callees

/-- Shows the code of a function if the workspace is set to. -/
def showCode (proto : Prototype) (routine : Code.Routine Code.FuncRef) : Build Unit := do
  if (← workspace).config.printCode then
    writeErr ("; " ++ routine.symbol ++ " (" ++ proto.shownName ++ ")\n" ++ routine.text ++ "\n")

/-- Compiles a function into the open unit. Its code is taken to be accepted, as by a
    backend that is `Backend.Accepting`: it assigns each value once, and its calls match
    their declarations. -/
def generate (function : Function) : Build Handle := do
  let proto := function.proto
  let symbol ← symbolFor proto.name
  checkDefinition proto.name symbol proto.arity
  let callees ← resolve proto symbol [] function.body
  let decl ← declare proto.name symbol proto.arity .exported
  match Code.Routine.ofExpr decl ⟨proto.params, withOwn proto decl callees⟩ function.body with
  | .error e => reject e
  | .ok routine =>
    showCode proto routine
    let u ← openUnit
    setCurrent (u.define routine)
    return { name := proto.name, symbol, arity := proto.arity }

end Abacus.Build
