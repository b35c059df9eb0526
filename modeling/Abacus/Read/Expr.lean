-- SUMMARY: Reading expressions with a stack, for any precedence table.
import Abacus.Expr.Basic
import Abacus.Precedence
import Abacus.Read.Reader

/-!
# Reading expressions

The state of reading an expression is a phase (what may come next) and a stack
of frames (what is still open around it, innermost first). A binary operator
first closes the operations on top of the stack that bind at least as tightly,
which makes operators of equal precedence group to the left.

An identifier directly before `(` is always a call. A character installed as an
operator with a precedence of at least zero continues an operand before
anything else is tried, so a table that installs `)` or `,` takes them away from
groups and argument lists.
-/

namespace Abacus

namespace ExprReader

/-- What encloses the expression being read. -/
inductive Frame where
  /-- An open parenthesis. -/
  | group
  /-- A call with the arguments read so far. -/
  | call (callee : String) (args : List Expr)
  /-- A left operand and its operator. -/
  | binary (lhs : Expr) (op : Char) (precedence : Int)
deriving Repr

inductive Phase where
  /-- An operand must follow. -/
  | operand
  /-- The argument list of a call was just opened. -/
  | argument (callee : String)
  /-- An identifier was read: a call if `(` follows, else a variable. -/
  | name (name : String)
  /-- An operand was read. -/
  | value (e : Expr)
deriving Repr

structure State where
  phase : Phase
  stack : List Frame
deriving Repr

/-- Closes the operations on top of the stack that bind at least as tightly as
    `precedence`, with `e` as the last right operand. -/
def reduce (precedence : Int) (e : Expr) : List Frame → Expr × List Frame
  | .binary lhs op q :: stack =>
    if precedence ≤ q then reduce precedence (.binary op lhs e) stack
    else (e, .binary lhs op q :: stack)
  | stack => (e, stack)

/-- Closes every operation on top of the stack. -/
def reduceAll (e : Expr) : List Frame → Expr × List Frame
  | .binary lhs op _ :: stack => reduceAll (.binary op lhs e) stack
  | stack => (e, stack)

/-- A token where an operand must start. -/
def absorbOperand? (stack : List Frame) : Token → Option State
  | .number x => some ⟨.value (.number x), stack⟩
  | .ident x  => some ⟨.name x, stack⟩
  | .char c   => if c = '(' then some ⟨.operand, .group :: stack⟩ else none
  | .keyword _ => none

/-- The precedence of a character that may continue an operand as an operator. -/
def operator? (table : PrecedenceTable) (c : Char) : Option Int :=
  (table.get? c).filter (0 ≤ ·)

/-- The character `c` right after the innermost operand `e`, once it is known
    not to be an operator. -/
def close? (e : Expr) (stack : List Frame) (c : Char) : Option State :=
  match reduceAll e stack with
  | (e, .group :: stack) =>
    if c = ')' then some ⟨.value e, stack⟩ else none
  | (e, .call callee args :: stack) =>
    if c = ')' then some ⟨.value (.call callee (args ++ [e])), stack⟩
    else if c = ',' then some ⟨.operand, .call callee (args ++ [e]) :: stack⟩
    else none
  | _ => none

/-- A token right after the operand `e`. -/
def absorbValue? (table : PrecedenceTable) (e : Expr) (stack : List Frame) : Token → Option State
  | .char c =>
    match operator? table c with
    | some precedence =>
      let (lhs, stack) := reduce precedence e stack
      some ⟨.operand, .binary lhs c precedence :: stack⟩
    | none => close? e stack c
  | _ => none

def absorb? (table : PrecedenceTable) : State → Token → Option State
  | ⟨.operand, stack⟩, t => absorbOperand? stack t
  | ⟨.argument callee, stack⟩, t =>
    if t = .char ')' then some ⟨.value (.call callee []), stack⟩
    else absorbOperand? (.call callee [] :: stack) t
  | ⟨.name x, stack⟩, t =>
    if t = .char '(' then some ⟨.argument x, stack⟩
    else absorbValue? table (.var x) stack t
  | ⟨.value e, stack⟩, t => absorbValue? table e stack t

/-- What stands when nothing follows the operand `e`. -/
def concludeValue (e : Expr) (stack : List Frame) : Except Cause Expr :=
  match reduceAll e stack with
  | (e, []) => .ok e
  | (_, .group :: _) => .error .unclosedGroup
  | (_, _ :: _) => .error .unclosedArgumentList

def conclude : State → Except Cause Expr
  | ⟨.operand, _⟩ => .error .missingExpression
  | ⟨.argument _, _⟩ => .error .missingExpression
  | ⟨.name x, stack⟩ => concludeValue (.var x) stack
  | ⟨.value e, stack⟩ => concludeValue e stack

def start : State := ⟨.operand, []⟩

end ExprReader

/-- Reads one expression. -/
def Expr.reader (table : PrecedenceTable) : Reader ExprReader.State Expr where
  start := ExprReader.start
  absorb? := ExprReader.absorb? table
  conclude s _ := ExprReader.conclude s

end Abacus
