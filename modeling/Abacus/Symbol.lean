-- SUMMARY: Symbols of functions: legal spellings of source names, and fresh names.

/-!
# Symbols

A symbol is made of ASCII letters, digits and `_`, and does not start with a
digit. Any other character of a name is spelled as its code point between two
underscores, and a digit in front gets an underscore before it. Source names
have no underscore, so neither spelled-out names nor the names invented for
anonymous functions are ever mistaken for one.
-/

namespace Abacus.Symbol

/-- Characters that a symbol may hold as they are. -/
def isPlain (c : Char) : Bool :=
  c.isAlphanum || c == '_'

/-- The spelling of a character. -/
def spell (c : Char) : List Char :=
  if isPlain c then [c] else '_' :: Nat.toDigits 10 c.toNat ++ ['_']

/-- The spelling of the first character of a name. -/
def spellFirst (c : Char) : List Char :=
  if c.isDigit then ['_', c] else spell c

def spellAll : List Char → List Char
  | []      => []
  | c :: cs => spellFirst c ++ cs.flatMap spell

/-- The symbol of a source name. -/
def legalize (name : String) : String :=
  String.ofList (spellAll name.toList)

/-- Hands out symbols, with a fresh one for every anonymous function. -/
structure Supply where
  /-- The number of the next anonymous function. -/
  next : Nat := 0
deriving DecidableEq, Repr

/-- The symbol of the `n`-th anonymous function. -/
def anonymous (n : Nat) : String :=
  "anon_func_" ++ toString n

def Supply.fresh (supply : Supply) : String × Supply :=
  (anonymous supply.next, ⟨supply.next + 1⟩)

/-- The symbol of a function; an empty name stands for an anonymous one. -/
def Supply.symbolFor (supply : Supply) (name : String) : String × Supply :=
  if name.isEmpty then supply.fresh else (legalize name, supply)

end Abacus.Symbol
