-- SUMMARY: Byte ranges of a source text, and values that remember theirs.

/-!
# Spans

Positions are byte offsets into the UTF-8 form of a source text. A span runs
from the first byte of what it covers to the byte after its last.
-/

namespace Abacus

structure Span where
  start : Nat
  stop  : Nat
deriving DecidableEq, Repr

/-- A value together with the place it was read from. -/
structure Located (α : Type) where
  value : α
  span  : Span
deriving DecidableEq, Repr

end Abacus
