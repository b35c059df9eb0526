-- SUMMARY: The fewest decimal digits that read back as a given double.

/-!
# Shortest decimals

A positive double `m * 2 ^ q` is the nearest double for every real in an
interval around it, the ends included exactly when `m` is even. Of the decimals
`d * 10 ^ k` in that interval, the ones with the fewest digits are wanted, and
of those the nearest.

On the grid of multiples of `10 ^ k` only the two neighbours of the value
matter: if any point of the grid lies in the interval, so does one of them. The
grids are tried from the coarsest that can have a hit. All of it is exact
integer arithmetic.
-/

namespace Abacus.Decimal

/-- Where a value goes that lies halfway between two candidates. -/
inductive Tie where
  | up
  | toEven
deriving DecidableEq, Repr

/-- The decimal `digits * 10 ^ exponent`. -/
structure Digits where
  digits   : Nat
  exponent : Int
deriving DecidableEq, Repr

/-- The number of decimal digits of `n`; zero has none. -/
def digitCount (n : Nat) : Nat :=
  if n = 0 then 0 else (Nat.toDigits 10 n).length

/-- The reals that read as one double: `low / unit` to `high / unit`, around
    `value / unit`. -/
structure Interval where
  low    : Nat
  value  : Nat
  high   : Nat
  unit   : Nat
  closed : Bool
deriving DecidableEq, Repr

/-- The interval of `m * 2 ^ q`. Its lower half is half as wide where the
    spacing of the doubles changes. -/
def Interval.around (m : Nat) (q : Int) (narrow : Bool) : Interval :=
  let scale := Nat.pow 2 q.toNat
  { low    := (4 * m - (if narrow then 1 else 2)) * scale
    value  := 4 * m * scale
    high   := (4 * m + 2) * scale
    unit   := 4 * Nat.pow 2 (-q).toNat
    closed := m % 2 == 0 }

namespace Interval

/-- Whether `d * 10 ^ k` lies in the interval. -/
def contains (i : Interval) (d : Nat) (k : Int) : Bool :=
  let point := d * Nat.pow 10 k.toNat * i.unit
  let scale := Nat.pow 10 (-k).toNat
  if i.closed then i.low * scale ≤ point && point ≤ i.high * scale
  else i.low * scale < point && point < i.high * scale

/-- The multiple of `10 ^ k` at or just below the value. -/
def floor (i : Interval) (k : Int) : Nat :=
  i.value * Nat.pow 10 (-k).toNat / (i.unit * Nat.pow 10 k.toNat)

/-- The exponent of the largest power of ten that is at most the value. -/
def order (i : Interval) : Int :=
  if i.unit ≤ i.value then (digitCount (i.value / i.unit) : Int) - 1
  else -(digitCount ((i.unit + i.value - 1) / i.value - 1) : Int)

/-- The nearer of the two neighbours `d` and `d + 1` of the value. -/
def nearer (i : Interval) (tie : Tie) (d : Nat) (k : Int) : Nat :=
  let middle := (2 * d + 1) * Nat.pow 10 k.toNat * i.unit
  let twice  := 2 * i.value * Nat.pow 10 (-k).toNat
  if twice < middle then d
  else if middle < twice then d + 1
  else match tie with
    | .up     => d + 1
    | .toEven => if d % 2 = 0 then d else d + 1

/-- The best multiple of `10 ^ k` in the interval, if there is one. -/
def candidate? (i : Interval) (tie : Tie) (k : Int) : Option Nat :=
  let d := i.floor k
  match i.contains d k, i.contains (d + 1) k with
  | true,  true  => some (i.nearer tie d k)
  | true,  false => some d
  | false, true  => some (d + 1)
  | false, false => none

end Interval

/-- Seventeen significant digits tell any two doubles apart. -/
def maxDigits : Nat := 17

/-- The shortest decimal for the positive double `m * 2 ^ q`. -/
def shortest (tie : Tie) (m : Nat) (q : Int) (narrow : Bool) : Digits :=
  let i := Interval.around m q narrow
  let coarsest := i.order + 1
  let found := (List.range (maxDigits + 1)).findSome? fun (n : Nat) =>
    (i.candidate? tie (coarsest - n)).map (Digits.mk · (coarsest - n))
  found.getD ⟨i.floor (coarsest - maxDigits), coarsest - maxDigits⟩

end Abacus.Decimal
