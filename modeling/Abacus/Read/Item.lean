-- SUMMARY: Reading definitions, externs and bare expressions.
import Abacus.Read.Expr
import Abacus.Read.Prototype

/-!
# Reading items

    definition ::= 'def' prototype expression
    external   ::= 'extern' prototype
    item       ::= definition | external | expression

The first token of an item decides which of the three it is.
-/

namespace Abacus

-- ---------------------------------------------------------------------------
-- Definitions
-- ---------------------------------------------------------------------------

namespace DefinitionReader

inductive State where
  | start
  | heading (s : PrototypeReader.State)
  | body (proto : Prototype) (s : ExprReader.State)
deriving Repr

/-- The body starts where the prototype is complete. -/
def absorb? (table : PrecedenceTable) : State → Token → Option State
  | .start, t => if t = .keyword .define then some (.heading .start) else none
  | .heading (.complete proto), t => (ExprReader.absorb? table ExprReader.start t).map (.body proto)
  | .heading s, t => (PrototypeReader.absorb? s t).map .heading
  | .body proto s, t => (ExprReader.absorb? table s t).map (.body proto)

def conclude : State → Option Token → Except Cause Function
  | .start, _ => .error (.missingKeyword .define)
  | .heading s, lookahead => do
    let proto ← PrototypeReader.conclude s lookahead
    let body ← ExprReader.conclude ExprReader.start
    return ⟨proto, body⟩
  | .body proto s, _ => do
    let body ← ExprReader.conclude s
    return ⟨proto, body⟩

end DefinitionReader

/-- Reads one definition. -/
def Function.reader (table : PrecedenceTable) : Reader DefinitionReader.State Function where
  start := .start
  absorb? := DefinitionReader.absorb? table
  conclude := DefinitionReader.conclude

-- ---------------------------------------------------------------------------
-- Externs
-- ---------------------------------------------------------------------------

namespace ExternalReader

inductive State where
  | start
  | heading (s : PrototypeReader.State)
deriving Repr

def absorb? : State → Token → Option State
  | .start, t => if t = .keyword .declare then some (.heading .start) else none
  | .heading s, t => (PrototypeReader.absorb? s t).map .heading

def conclude : State → Option Token → Except Cause Prototype
  | .start, _ => .error (.missingKeyword .declare)
  | .heading s, lookahead => PrototypeReader.conclude s lookahead

end ExternalReader

/-- Reads one extern. -/
def Prototype.externalReader : Reader ExternalReader.State Prototype where
  start := .start
  absorb? := ExternalReader.absorb?
  conclude := ExternalReader.conclude

-- ---------------------------------------------------------------------------
-- Bare expressions
-- ---------------------------------------------------------------------------

/-- A bare expression as a function. -/
def Function.ofExpr (body : Expr) : Function :=
  ⟨Prototype.anonymous, body⟩

/-- Reads one bare expression. -/
def Function.bareReader (table : PrecedenceTable) : Reader ExprReader.State Function where
  start := ExprReader.start
  absorb? := ExprReader.absorb? table
  conclude s _ := (ExprReader.conclude s).map Function.ofExpr

-- ---------------------------------------------------------------------------
-- Items
-- ---------------------------------------------------------------------------

namespace ItemReader

inductive State where
  | start
  | definition (s : DefinitionReader.State)
  | external (s : ExternalReader.State)
  | expression (s : ExprReader.State)
deriving Repr

def absorb? (table : PrecedenceTable) : State → Token → Option State
  | .start, .keyword .define =>
    (DefinitionReader.absorb? table .start (.keyword .define)).map .definition
  | .start, .keyword .declare => (ExternalReader.absorb? .start (.keyword .declare)).map .external
  | .start, t => (ExprReader.absorb? table ExprReader.start t).map .expression
  | .definition s, t => (DefinitionReader.absorb? table s t).map .definition
  | .external s, t => (ExternalReader.absorb? s t).map .external
  | .expression s, t => (ExprReader.absorb? table s t).map .expression

/-- A token that starts no item is reported as a missing expression. -/
def conclude : State → Option Token → Except Cause Item
  | .start, _ => .error .missingExpression
  | .definition s, lookahead => (DefinitionReader.conclude s lookahead).map .definition
  | .external s, lookahead => (ExternalReader.conclude s lookahead).map .external
  | .expression s, _ => (ExprReader.conclude s).map fun e => .expression (.ofExpr e)

end ItemReader

/-- Reads one item. -/
def Item.reader (table : PrecedenceTable) : Reader ItemReader.State Item where
  start := .start
  absorb? := ItemReader.absorb? table
  conclude := ItemReader.conclude

theorem Item.reader_consuming (table : PrecedenceTable) : (Item.reader table).Consuming := by
  intro _ _ h
  cases h

end Abacus
