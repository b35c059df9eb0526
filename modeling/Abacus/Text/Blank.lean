-- SUMMARY: Blank characters, and text trimmed of them.
import Abacus.Text.Ranges

/-!
# Blank text

Layout between tokens, and the lines a reader may skip, are made of blank
characters: those with the `White_Space` property of Unicode. The property is
kept as a table of ranges.
-/

namespace Abacus.Text

def blankRanges : Ranges :=
  [(0x0009, 0x000D), (0x0020, 0x0020), (0x0085, 0x0085), (0x00A0, 0x00A0), (0x1680, 0x1680),
   (0x2000, 0x200A), (0x2028, 0x2029), (0x202F, 0x202F), (0x205F, 0x205F), (0x3000, 0x3000)]

def isBlank (c : Char) : Bool :=
  blankRanges.covers c

theorem isBlank_iff (c : Char) :
    isBlank c = true ↔ ∃ r ∈ blankRanges, r.1 ≤ c.toNat ∧ c.toNat ≤ r.2 :=
  Ranges.covers_iff (by decide) c

/-- A text with nothing on it but blanks. -/
def isBlankText (text : String) : Bool :=
  text.toList.all isBlank

/-- The text without the blanks at its end. -/
def trimEnd (text : String) : String :=
  String.ofList (text.toList.reverse.dropWhile isBlank).reverse

end Abacus.Text
