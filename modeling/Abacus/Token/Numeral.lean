-- SUMMARY: The value of a run of digits and points.

/-!
# Numerals

A numeral is any run of digits and points. It is worth what stands before its
second point, read as a decimal; without a digit there it is worth zero. So
`1.2.3` is `1.2`, and a lone point is `0`.
-/

namespace Abacus.Numeral

/-- The characters a numeral is made of. -/
def isPart (c : Char) : Bool :=
  c.isDigit || c == '.'

/-- The digits before the first point of a run. -/
def whole (run : List Char) : List Char :=
  run.takeWhile Char.isDigit

/-- The digits between the first point and the second. -/
def places (run : List Char) : List Char :=
  ((run.dropWhile Char.isDigit).drop 1).takeWhile Char.isDigit

/-- The double nearest to the decimal before the second point of a run. -/
def value (run : List Char) : Float :=
  match whole run ++ places run with
  | [] => 0
  | ds => Float.ofScientific (Nat.ofDigitChars 10 ds 0) true (places run).length

end Abacus.Numeral
