-- SUMMARY: The fields of a double: sign, kind, and magnitude as an integer times a power of two.

/-!
# Doubles taken apart

Every text of a number (its decimal text, its hexadecimal text) starts from the
same reading of the sixty-four bits. All of it is integer arithmetic, so that
what is said about digits can be said about integers.
-/

namespace Abacus.Binary64

/-- Whether the sign bit is set. -/
def isNegative (x : Float) : Bool :=
  x.toBits.toNat / Nat.pow 2 63 == 1

/-- The low fifty-two bits. -/
def fraction (x : Float) : Nat :=
  x.toBits.toNat % Nat.pow 2 52

/-- The eleven bits of the biased exponent. -/
def biasedExponent (x : Float) : Nat :=
  x.toBits.toNat / Nat.pow 2 52 % Nat.pow 2 11

/-- What a double is once its sign is put aside. A finite one is
    `mantissa * 2 ^ exponent`. -/
inductive Magnitude where
  | notANumber
  | infinite
  | finite (mantissa : Nat) (exponent : Int)
deriving DecidableEq, Repr

/-- The exponent of the smallest positive double, `2 ^ -1074`. -/
def leastExponent : Int := -1074

/-- The mantissa of the doubles at which the spacing doubles. -/
def leastNormalMantissa : Nat := Nat.pow 2 52

def magnitude (x : Float) : Magnitude :=
  if biasedExponent x = 2047 then
    if fraction x = 0 then .infinite else .notANumber
  else if biasedExponent x = 0 then
    .finite (fraction x) leastExponent
  else
    .finite (leastNormalMantissa + fraction x) (biasedExponent x - 1 + leastExponent)

end Abacus.Binary64
