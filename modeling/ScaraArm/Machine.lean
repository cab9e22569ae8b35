import ScaraArm.Config.Validate

/-!
# Machines

Everything the commands need of one machine, built once from its configuration.
-/

namespace ScaraArm

/-- A configured machine. -/
structure Machine where
  geometry : Geometry Float
  segmenter : Segmenter Float
  axes : AxisTable Float 1
  homing : Homing Float 1

namespace Machine

/-- Why a configuration makes no machine. -/
inductive BuildError where
  /-- A link has no usable length. -/
  | geometry (e : InvalidLink Float)
  /-- There are not as many axes as the machine has. -/
  | axes (e : Config.WrongAxisCount)
deriving DecidableEq

/-- Builds the machine of a configuration. The arm is looked at before the axes. -/
def build (c : Config) : Except BuildError Machine :=
  match Geometry.build c.robot.lower c.robot.upper c.robot.elbow c.robot.convention with
  | .error e => .error (.geometry e)
  | .ok geometry =>
    match c.axisTable with
    | .error e => .error (.axes e)
    | .ok axes =>
      .ok
        { geometry
          segmenter := (Segmenter.forArm geometry 0).withMaxLength c.robot.maxSegmentLength
          axes
          homing := ⟨geometry, axes, c.homing⟩ }

end Machine

end ScaraArm
