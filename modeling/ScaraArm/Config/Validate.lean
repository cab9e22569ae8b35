import ScaraArm.Config.Basic

/-!
# Checking configurations

A configuration that could be read may still describe no machine. The check looks at the
number of axes, the scale of each, the length of the longest piece and the distance axes
back off, and reports the first fault. The links are left to the arm, which refuses
unusable lengths by itself.
-/

namespace ScaraArm.Config

/-- A fault of a configuration. -/
inductive Fault where
  /-- There are not as many axes as the machine has. -/
  | axisCount (found : Nat)
  /-- The scale of an axis is not usable. -/
  | stepsPerUnit (index : Nat)
  /-- The length of the longest piece is not usable. -/
  | maxSegmentLength
  /-- Axes are to back off by less than nothing. -/
  | pulloff
deriving Repr, DecidableEq

/-- What is wrong, in words. -/
def Fault.message : Fault → String
  | .axisCount found => s!"expected {Config.axisCount} axes, found {found} in the axes table"
  | .stepsPerUnit index => s!"axes[{index}].steps_per_mm must be positive"
  | .maxSegmentLength => "robot.max_segment_length must be positive"
  | .pulloff => "homing.pulloff cannot be negative"

/-- The first axis whose scale is not usable. -/
def badAxis? (c : Config) : Option Nat :=
  c.axes.findIdx? fun axis => !Scalar.isPositive axis.stepsPerUnit

/-- Checks a configuration; the first fault is the one reported. -/
def validate (c : Config) : Except Fault Unit :=
  if c.axes.length ≠ axisCount then .error (.axisCount c.axes.length)
  else
    match c.badAxis? with
    | some index => .error (.stepsPerUnit index)
    | none =>
      if !Scalar.isPositive c.robot.maxSegmentLength then .error .maxSegmentLength
      else if Scalar.lt c.homing.pulloff Scalar.zero then .error .pulloff
      else .ok ()

/-- The list of axes does not have the length of the machine. -/
structure WrongAxisCount where
  found : Nat
deriving Repr, DecidableEq

/-- What is wrong, in words. -/
def WrongAxisCount.message (e : WrongAxisCount) : String :=
  s!"expected {axisCount} axes, found {e.found}"

/-- The axes as a table, if there are as many as the machine has. -/
def axisTable (c : Config) : Except WrongAxisCount (AxisTable Float 1) :=
  match PerAxis.ofList? 1 c.axes with
  | some axes => .ok axes
  | none => .error ⟨c.axes.length⟩

end ScaraArm.Config
