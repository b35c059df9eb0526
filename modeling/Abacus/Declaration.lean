-- SUMMARY: What a unit knows about a function.

/-!
# Declarations

A unit declares every function that it defines or calls. Only the symbol and
the number of parameters matter to a caller; the source name is kept for
messages.
-/

namespace Abacus

/-- Where the body of a function is, and who sees it. -/
inductive Linkage where
  /-- The body is to be found elsewhere. -/
  | imported
  /-- The body belongs to this unit, which alone sees it. -/
  | confined
  /-- The body belongs to this unit, and another may take its place. -/
  | preemptible
  /-- The body belongs to this unit, and is seen where the unit is linked. -/
  | hidden
  /-- The body belongs to this unit, and is seen everywhere. -/
  | exported
deriving DecidableEq, Repr

/-- The linkage of a function that is declared twice: the wider of the two. An import
    gives way to anything, and a function that is exported once stays exported. -/
def Linkage.merge : Linkage → Linkage → Linkage
  | .imported, linkage => linkage
  | .confined, .imported => .confined
  | .confined, linkage => linkage
  | .preemptible, .exported => .exported
  | .preemptible, _ => .preemptible
  | .hidden, .exported => .exported
  | .hidden, .preemptible => .preemptible
  | .hidden, _ => .hidden
  | .exported, _ => .exported

/-- Whether a body may be given for the function. -/
def Linkage.isDefinable : Linkage → Bool
  | .imported => false
  | .confined | .preemptible | .hidden | .exported => true

/-- Whether the body is known to be that of the unit. -/
def Linkage.isFinal : Linkage → Bool
  | .imported | .preemptible => false
  | .confined | .hidden | .exported => true

structure Declaration where
  /-- The source name, for messages. -/
  name    : String
  symbol  : String
  arity   : Nat
  /-- Counts the symbols declared in the unit before this one. -/
  id      : Nat
  linkage : Linkage
  hasBody : Bool := false
deriving DecidableEq, Repr

end Abacus
