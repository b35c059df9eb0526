-- SUMMARY: Fully parenthesised text of expressions.
import Abacus.Decimal.Style
import Abacus.Expr.Basic

/-!
# Text of expressions

Every binary operation is put in parentheses, so the text shows how an
expression is grouped: `1 - 2 * x` is shown as `(1 - (2 * x))`.
-/

namespace Abacus

mutual

def Expr.text : Expr → String
  | .number x => Decimal.valueText x
  | .var name => name
  | .binary op lhs rhs => "(" ++ lhs.text ++ " " ++ op.toString ++ " " ++ rhs.text ++ ")"
  | .call callee args => callee ++ "(" ++ Expr.argsText args ++ ")"

/-- The texts of arguments, with a comma and a space between them. -/
def Expr.argsText : List Expr → String
  | [] => ""
  | [arg] => arg.text
  | arg :: next :: args => arg.text ++ ", " ++ Expr.argsText (next :: args)

end

/-- The name shown for a function, which is never empty. -/
def Prototype.shownName (proto : Prototype) : String :=
  if proto.isAnonymous then "<anonymous>" else proto.name

def Prototype.text (proto : Prototype) : String :=
  proto.shownName ++ "(" ++ " ".intercalate proto.params ++ ")"

end Abacus
