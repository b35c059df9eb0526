-- SUMMARY: Running straight-line code.
import Abacus.Code.Basic

/-!
# Running code

Code runs forward once, each instruction adding its value to those before it.
What a call does is a parameter: a meaning for callees, from arguments to a
value and the bytes written on the way.

Well-formed code never gets stuck, and without conditionals a run that calls
itself again never ends. Running is therefore total up to a bound on the depth
of calls, and says which of the two happened.
-/

namespace Abacus.Code

/-- Why running ends without a value. -/
inductive Halt where
  /-- An operand, callee or argument list is not what an instruction needs. -/
  | stuck
  /-- Calls are nested deeper than allowed. -/
  | tooDeep
deriving DecidableEq, Repr

/-- A run, with the bytes written to standard output so far. -/
abbrev Exec := StateT (List UInt8) (Except Halt)

/-- Writes bytes to standard output. -/
def Exec.write (bytes : List UInt8) : Exec Unit :=
  modify (· ++ bytes)

inductive Value where
  | float (x : Float)
  | word (n : Nat)
deriving Repr

/-- A floating-point operand. -/
def float (env : List Value) (a : Nat) : Exec Float :=
  match env[a]? with
  | some (.float x) => pure x
  | _ => throw .stuck

/-- An integer operand. -/
def word (env : List Value) (a : Nat) : Exec Nat :=
  match env[a]? with
  | some (.word n) => pure n
  | _ => throw .stuck

/-- Floating-point operands, in order. -/
def floats (env : List Value) : List Nat → Exec (List Float)
  | [] => pure []
  | a :: as => do
    let x ← float env a
    let xs ← floats env as
    return x :: xs

def Arith.apply : Arith → Float → Float → Float
  | .add, x, y => x + y
  | .sub, x, y => x - y
  | .mul, x, y => x * y

/-- What running a call to `κ` does. -/
abbrev Meaning (κ : Type) := κ → List Float → Exec Float

variable {κ : Type}

/-- The value of one instruction after those in `env`. -/
def Instr.exec (call : Meaning κ) (env : List Value) : Instr κ → Exec Value
  | .const x => return .float x
  | .arith op a b => do
    let x ← float env a
    let y ← float env b
    return .float (op.apply x y)
  | .less a b => do
    let x ← float env a
    let y ← float env b
    return .word (if x < y then 1 else 0)
  | .extend a => do
    let n ← word env a
    return .word n
  | .convert a => do
    let n ← word env a
    return .float (Float.ofNat n)
  | .call callee args => do
    let xs ← floats env args
    let y ← call callee xs
    return .float y

/-- All values after running instructions. -/
def execAll (call : Meaning κ) (env : List Value) : List (Instr κ) → Exec (List Value)
  | [] => return env
  | i :: is => do
    let v ← i.exec call env
    execAll call (env ++ [v]) is

/-- Runs a routine on as many arguments as it has parameters. -/
def Routine.exec (call : Meaning κ) (routine : Routine κ) (args : List Float) : Exec Float :=
  if args.length = routine.arity then do
    let env ← execAll call (args.map .float) routine.code
    float env routine.result
  else throw .stuck

end Abacus.Code
