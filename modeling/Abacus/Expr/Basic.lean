-- SUMMARY: Expressions, functions and the items of a program.

/-!
# Expressions and items

Every value is a double, so a function is described by its name, the names of
its parameters and its body. A program is a list of items: definitions, externs
(functions promised to be defined elsewhere) and bare expressions.
-/

namespace Abacus

inductive Expr where
  | number (value : Float)
  | var (name : String)
  | binary (op : Char) (lhs rhs : Expr)
  | call (callee : String) (args : List Expr)
deriving Repr

/-- A function without its body. -/
structure Prototype where
  name   : String
  params : List String
deriving DecidableEq, Repr

namespace Prototype

/-- The prototype that wraps a bare expression: no name and no parameters. -/
def anonymous : Prototype := ⟨"", []⟩

/-- The function has no name of its own. -/
def isAnonymous (proto : Prototype) : Bool :=
  proto.name.isEmpty

def arity (proto : Prototype) : Nat :=
  proto.params.length

end Prototype

structure Function where
  proto : Prototype
  body  : Expr
deriving Repr

inductive Item where
  | definition (function : Function)
  | external (proto : Prototype)
  /-- A bare expression, wrapped in a function without name and parameters. -/
  | expression (function : Function)
deriving Repr

end Abacus
