-- SUMMARY: Settings of a workspace.

/-!
# Settings

The optimization level is carried for the record: it changes how fast code
runs and nothing else.
-/

namespace Abacus

inductive OptLevel where
  | none
  | speed
  | speedAndSize
deriving DecidableEq, Repr

/-- The setting's name. -/
def OptLevel.setting : OptLevel → String
  | .none         => "none"
  | .speed        => "speed"
  | .speedAndSize => "speed_and_size"

structure Config where
  optLevel  : OptLevel := .speed
  /-- Show the code of every function before it is defined. -/
  printCode : Bool := false
  /-- Report definitions, and units as they are opened and finalized. -/
  verbose   : Bool := false
deriving DecidableEq, Repr

end Abacus
