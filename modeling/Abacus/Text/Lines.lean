-- SUMMARY: Lines of a text or of raw input.

/-!
# Lines

A line ends at a line feed, which is not part of it; neither is a carriage
return right before the line feed. The last line may lack its line feed, and
then keeps what it has. The same cut serves characters and bytes.
-/

namespace Abacus.Text

variable {α : Type} [DecidableEq α]

/-- A line that ended at a line feed. It is given last element first. -/
def endLine (cr : α) : List α → List α
  | [] => []
  | a :: line => if a = cr then line.reverse else (a :: line).reverse

/-- The lines from the middle of one on, of which `line` is the part before,
    last element first. -/
def linesFrom (lf cr : α) (line : List α) : List α → List (List α)
  | [] => if line.isEmpty then [] else [line.reverse]
  | a :: rest =>
    if a = lf then endLine cr line :: linesFrom lf cr [] rest
    else linesFrom lf cr (a :: line) rest

/-- The lines of a text. -/
def lines (text : String) : List String :=
  (linesFrom '\n' '\r' [] text.toList).map String.ofList

/-- The lines of raw input. -/
def byteLines (input : List UInt8) : List (List UInt8) :=
  linesFrom 10 13 [] input

end Abacus.Text
