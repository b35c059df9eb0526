-- SUMMARY: Text of straight-line code.
import Abacus.Code.Basic
import Abacus.Decimal.Binary64

/-!
# Text of code

A function is shown with the signatures and functions it calls, its one block,
and a remark after each instruction that uses constants. Constants are written
in hexadecimal, exactly.
-/

namespace Abacus.Code

/-- `n` in hexadecimal, with at least `width` digits. -/
def hexText (width n : Nat) : String :=
  let ds := Nat.toDigits 16 n
  String.ofList (List.replicate (width - ds.length) '0' ++ ds)

/-- A magnitude in hexadecimal: `0x1.` or, for a subnormal one, `0x0.`, the
    thirteen digits of the fraction, and the power of two. -/
def constantMagnitude (x : Float) : String :=
  match Binary64.magnitude x with
  | .notANumber => "+NaN"
  | .infinite => if Binary64.isNegative x then "Inf" else "+Inf"
  | .finite 0 _ => "0.0"
  | .finite _ exponent =>
    let lead := if Binary64.biasedExponent x = 0 then "0x0." else "0x1."
    lead ++ hexText 13 (Binary64.fraction x) ++ "p" ++ toString (exponent + 52)

def constantText (x : Float) : String :=
  if Binary64.isNegative x then "-" ++ constantMagnitude x else constantMagnitude x

def valueName (v : Nat) : String :=
  "v" ++ toString v

def commas (texts : List String) : String :=
  ", ".intercalate texts

/-- The type of functions with `arity` parameters. -/
def signatureText (arity : Nat) : String :=
  "(" ++ commas (List.replicate arity "f64") ++ ") -> f64 system_v"

def functionName (id : Nat) : String :=
  "u0:" ++ toString id

def Arith.mnemonic : Arith → String
  | .add => "fadd"
  | .sub => "fsub"
  | .mul => "fmul"

def Instr.operands {κ : Type} : Instr κ → List Nat
  | .const _ => []
  | .arith _ a b => [a, b]
  | .less a b => [a, b]
  | .extend a => [a]
  | .convert a => [a]
  | .call _ args => args

def Instr.text : Instr FuncRef → String
  | .const x => "f64const " ++ constantText x
  | .arith op a b => op.mnemonic ++ " " ++ commas [valueName a, valueName b]
  | .less a b => "fcmp lt " ++ commas [valueName a, valueName b]
  | .extend a => "uextend.i32 " ++ valueName a
  | .convert a => "fcvt_from_sint.f64 " ++ valueName a
  | .call ref args =>
    "call fn" ++ toString ref.index ++ "(" ++ commas (args.map valueName) ++ ")"

namespace Routine

variable (routine : Routine FuncRef)

/-- The constant behind a value, if it is one. -/
def constant? (v : Nat) : Option Float :=
  if v < routine.arity then none
  else match routine.code[v - routine.arity]? with
    | some (.const x) => some x
    | _ => none

/-- Names the constants among operands. -/
def remark (operands : List Nat) : String :=
  let constants := operands.filterMap fun v =>
    (routine.constant? v).map fun x => valueName v ++ " = " ++ constantText x
  if constants.isEmpty then "" else "  ; " ++ commas constants

def lineText (v : Nat) (i : Instr FuncRef) : String :=
  "    " ++ valueName v ++ " = " ++ i.text ++ routine.remark i.operands ++ "\n"

/-- The references of a function in the order of their numbers. -/
def references : List FuncRef :=
  routine.callees.mergeSort fun a b => a.index ≤ b.index

/-- The signatures and functions that are called, with an empty line after them. -/
def preamble : String :=
  let refs := routine.references
  if refs.isEmpty then ""
  else
    let signatures := refs.map fun ref =>
      "    sig" ++ toString ref.index ++ " = " ++ signatureText ref.arity ++ "\n"
    let functions := refs.map fun ref =>
      "    fn" ++ toString ref.index ++ " = " ++ (if ref.colocated then "colocated " else "")
        ++ functionName ref.id ++ " sig" ++ toString ref.index ++ "\n"
    String.join signatures ++ String.join functions ++ "\n"

def blockHead : String :=
  let params := (List.range routine.arity).map fun v => valueName v ++ ": f64"
  if params.isEmpty then "block0:\n" else "block0(" ++ commas params ++ "):\n"

def text : String :=
  "function " ++ functionName routine.id ++ signatureText routine.arity ++ " \x7b\n"
    ++ routine.preamble
    ++ routine.blockHead
    ++ String.join (routine.code.mapIdx fun k i => routine.lineText (routine.arity + k) i)
    ++ "    return " ++ valueName routine.result ++ routine.remark [routine.result] ++ "\n\x7d\n"

end Routine

end Abacus.Code
