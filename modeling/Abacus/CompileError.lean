-- SUMMARY: Why a statement is rejected.

/-!
# Compile errors

A rejected statement is dropped and the session goes on. A call that cannot be
linked is not among these errors: it is found only after the statement was
accepted, and there is no going on after it.
-/

namespace Abacus

inductive CompileError where
  | unknownVariable (name : String)
  | unknownFunction (name : String)
  | arityMismatch (name : String) (expected found : Nat)
  | invalidOperator (op : Char)
  | duplicateDefinition (name : String)
  /-- An address was asked for a symbol that no unit defines. -/
  | unknownSymbol (symbol : String)
  /-- Generated code is malformed. -/
  | verifier (function message : String)
  /-- A symbol was declared in two ways in one unit. -/
  | backend (message : String)
deriving DecidableEq, Repr

def CompileError.text : CompileError → String
  | .unknownVariable name => "unknown variable name '" ++ name ++ "'"
  | .unknownFunction name => "unknown function referenced: '" ++ name ++ "'"
  | .arityMismatch name expected found =>
    "arity mismatch for '" ++ name ++ "': expected " ++ toString expected
      ++ " argument(s), found " ++ toString found
  | .invalidOperator op => "invalid binary operator '" ++ op.toString ++ "'"
  | .duplicateDefinition name => "function '" ++ name ++ "' cannot be redefined"
  | .unknownSymbol symbol => "symbol '" ++ symbol ++ "' was never compiled"
  | .verifier function message =>
    "generated code for '" ++ function ++ "' failed verification: " ++ message
  | .backend message => "backend error: " ++ message

end Abacus
