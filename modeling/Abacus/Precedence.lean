-- SUMMARY: Which characters are binary operators, and how tightly they bind.

/-!
# Precedence tables

An operator with a higher precedence binds tighter. A negative precedence takes
a character out of use as an operator without forgetting that it was installed.
In the standard table `-` ranks above `+`, so `1 + 2 - 3` groups as
`1 + (2 - 3)`.
-/

namespace Abacus

/-- Operators with their precedences; the first entry for an operator counts. -/
structure PrecedenceTable where
  entries : List (Char × Int)
deriving DecidableEq, Repr

namespace PrecedenceTable

def empty : PrecedenceTable := ⟨[]⟩

/-- The precedence of `op`, if it is installed. -/
def get? (table : PrecedenceTable) (op : Char) : Option Int :=
  table.entries.lookup op

/-- Installs `op`, replacing any earlier precedence. -/
def install (table : PrecedenceTable) (op : Char) (precedence : Int) : PrecedenceTable :=
  ⟨(op, precedence) :: table.entries⟩

/-- The table a session uses. -/
def standard : PrecedenceTable :=
  (((empty.install '<' 10).install '+' 20).install '-' 30).install '*' 40

/-- Two tables agree on every operator. -/
def agrees (a b : PrecedenceTable) : Bool :=
  (a.entries ++ b.entries).all fun (op, _) => a.get? op == b.get? op

@[simp] theorem get?_empty (op : Char) : empty.get? op = none := rfl

theorem get?_install (table : PrecedenceTable) (op c : Char) (precedence : Int) :
    (table.install op precedence).get? c = if c = op then some precedence else table.get? c := by
  by_cases h : c = op <;> simp [install, get?, List.lookup_cons, h, beq_false_of_ne]

end PrecedenceTable

end Abacus
