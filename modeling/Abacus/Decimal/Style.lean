-- SUMMARY: Decimal text of a double, in a style.
import Abacus.Decimal.Binary64
import Abacus.Decimal.Shortest

/-!
# Styles of decimal text

The digits of a number are settled by `Decimal.shortest`. What is left to each
output format is a `Style`: where positional writing ends, whether a whole
number shows a fraction, which way ties go, and the words for what is not
finite.
-/

namespace Abacus.Decimal

structure Style where
  /-- Which decimal exponents (of the first digit) are written positionally. -/
  positional  : Int → Bool
  /-- Whether a positional whole number ends in `.0`. -/
  keepsPoint  : Bool
  tie         : Tie
  notANumber  : String
  /-- The text of an infinity, given whether it is negative. -/
  infinite    : Bool → String

/-- The digits `ds`, followed by `10 ^ exponent`, written out in full. -/
def positionalText (keepsPoint : Bool) (ds : List Char) (exponent : Int) : List Char :=
  if 0 ≤ exponent then
    ds ++ List.replicate exponent.toNat '0' ++ (if keepsPoint then ['.', '0'] else [])
  else
    let places := (-exponent).toNat
    if places < ds.length then
      ds.take (ds.length - places) ++ '.' :: ds.drop (ds.length - places)
    else
      '0' :: '.' :: List.replicate (places - ds.length) '0' ++ ds

/-- One digit before the point and a signed exponent. -/
def scientificText (ds : List Char) (order : Int) : List Char :=
  let mantissa := match ds with
    | d :: e :: es => d :: '.' :: e :: es
    | short        => short
  mantissa ++ 'e' :: (if order < 0 then '-' else '+') :: Nat.toDigits 10 order.natAbs

/-- The text of `mantissa * 2 ^ exponent`. -/
def Style.magnitudeText (style : Style) (mantissa : Nat) (exponent : Int) : List Char :=
  if mantissa = 0 then positionalText style.keepsPoint ['0'] 0
  else
    let narrow := mantissa == Binary64.leastNormalMantissa && exponent != Binary64.leastExponent
    let short := shortest style.tie mantissa exponent narrow
    let ds := Nat.toDigits 10 short.digits
    let order := short.exponent + ds.length - 1
    if style.positional order then positionalText style.keepsPoint ds short.exponent
    else scientificText ds order

/-- The text of a double. A negative zero keeps its sign. -/
def Style.text (style : Style) (x : Float) : String :=
  match Binary64.magnitude x with
  | .notANumber => style.notANumber
  | .infinite   => style.infinite (Binary64.isNegative x)
  | .finite mantissa exponent =>
    let digits := style.magnitudeText mantissa exponent
    String.ofList (if Binary64.isNegative x then '-' :: digits else digits)

/-- How values are shown: never an exponent, no point after a whole number, and
    a tie goes up. -/
def valueStyle : Style where
  positional := fun _ => true
  keepsPoint := false
  tie        := .up
  notANumber := "NaN"
  infinite   := fun negative => if negative then "-inf" else "inf"

/-- The text of a value as it is shown to the user. -/
def valueText (x : Float) : String :=
  valueStyle.text x

end Abacus.Decimal
