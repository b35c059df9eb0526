-- SUMMARY: Addresses of symbols, as published by one engine after another.
import Abacus.Intrinsic

/-!
# Symbol registry

Each engine publishes the symbols that it defines. A symbol is looked for in
the engines, oldest first, and then among the intrinsics, so a definition takes
the place of an intrinsic of its name for everything linked after it.
-/

namespace Abacus

/-- What a symbol stands for. -/
inductive Link (α : Type) where
  | code (address : α)
  | host (intrinsic : Intrinsic)
deriving DecidableEq, Repr

/-- The symbols of each engine, oldest first. -/
structure Registry (α : Type) where
  published : List (List (String × α)) := []
deriving DecidableEq, Repr

namespace Registry

variable {α : Type}

def publish (registry : Registry α) (symbols : List (String × α)) : Registry α :=
  ⟨registry.published ++ [symbols]⟩

/-- The address of a symbol in the oldest engine that has it. -/
def address? (registry : Registry α) (symbol : String) : Option α :=
  registry.published.findSome? (·.lookup symbol)

/-- Engines first, then intrinsics. -/
def resolve (registry : Registry α) (symbol : String) : Option (Link α) :=
  ((registry.address? symbol).map .code).or ((Intrinsic.ofSymbol? symbol).map .host)

end Registry

/-- The report of a symbol that resolves nowhere. Code has been linked against
    it already, so nothing can be done but stop. -/
def unresolvedText (symbol : String) : String :=
  "fatal: unresolved external symbol '" ++ symbol ++ "'\n"

end Abacus
