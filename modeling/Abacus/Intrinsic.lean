-- SUMMARY: Functions of the host that programs may declare and call.
import Abacus.Code.Exec
import Abacus.Decimal.Style
import Abacus.Text.Utf8

/-!
# Intrinsics

Each intrinsic takes one number. Two of them write to standard output and give
zero; the others are the usual functions of floating-point arithmetic.
-/

namespace Abacus

inductive Intrinsic where
  | putchard
  | printd
  | sin
  | cos
  | sqrt
  | exp
  | log
  | fabs
deriving DecidableEq, Repr

namespace Intrinsic

/-- All intrinsics, in the order they are listed in. -/
def all : List Intrinsic :=
  [.putchard, .printd, .sin, .cos, .sqrt, .exp, .log, .fabs]

def symbol : Intrinsic → String
  | .putchard => "putchard"
  | .printd   => "printd"
  | .sin      => "sin"
  | .cos      => "cos"
  | .sqrt     => "sqrt"
  | .exp      => "exp"
  | .log      => "log"
  | .fabs     => "fabs"

/-- The intrinsic with a given symbol. -/
def ofSymbol? (symbol : String) : Option Intrinsic :=
  all.find? (·.symbol == symbol)

/-- The value of an intrinsic at `x`. -/
def value : Intrinsic → Float → Float
  | .putchard, _ => 0
  | .printd, _   => 0
  | .sin, x      => x.sin
  | .cos, x      => x.cos
  | .sqrt, x     => x.sqrt
  | .exp, x      => x.exp
  | .log, x      => x.log
  | .fabs, x     => x.abs

/-- The bytes an intrinsic writes at `x`: the byte nearest to it toward zero,
    kept within range, or its text on a line. -/
def output : Intrinsic → Float → List UInt8
  | .putchard, x => [x.toUInt8]
  | .printd, x   => Text.utf8 (Decimal.valueText x ++ "\n")
  | _, _         => []

/-- The argument that an intrinsic takes: the first. A program may declare an intrinsic
    with any number of parameters; without an argument to take, it finds what was left in
    its place, for which zero stands. -/
def argument (args : List Float) : Float :=
  args.headD 0

/-- Runs an intrinsic. -/
def exec (i : Intrinsic) (args : List Float) : Code.Exec Float := do
  Code.Exec.write (i.output (argument args))
  return i.value (argument args)

theorem ofSymbol?_symbol (i : Intrinsic) : ofSymbol? i.symbol = some i := by
  cases i <;> decide

theorem symbol_of_ofSymbol? {symbol : String} {i : Intrinsic} (h : ofSymbol? symbol = some i) :
    i.symbol = symbol := by
  simpa using List.find?_some h

end Intrinsic

end Abacus
