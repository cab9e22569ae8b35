import ScaraArm.Axis.Homing
import ScaraArm.Line.Segmenter

/-!
# Machine configuration

What a configuration file says about a machine: its arm, the scale of every axis and how
it homes. Everything but the scale of an axis that is listed has a usual value.
-/

namespace ScaraArm

/-- How many axes a configured machine has: two joints and one carried axis. -/
def Config.axisCount : Nat := 3

/-- What a configuration says about the arm. -/
structure RobotConfig where
  /-- Length of the lower link in millimetres. -/
  lower : Float
  /-- Length of the upper link in millimetres. -/
  upper : Float
  elbow : Elbow
  convention : AngleConvention
  /-- Length of the longest piece that a line is cut into, in millimetres. -/
  maxSegmentLength : Float
deriving DecidableEq

/-- A machine configuration. -/
structure Config where
  robot : RobotConfig
  /-- The settings of the axes, in axis order. -/
  axes : List (AxisSettings Float)
  homing : HomingSettings Float
deriving DecidableEq

namespace Config

/-- The travel of an axis that names none. -/
def usualTravel : Float := -200

/-- An axis of a machine whose configuration lists no axes. -/
def usualAxis : AxisSettings Float := ⟨250, usualTravel⟩

/-- The axes of a machine whose configuration lists none. -/
def usualAxes : List (AxisSettings Float) := List.replicate axisCount usualAxis

/-- The arm of a machine whose configuration says nothing about it. -/
def usualRobot : RobotConfig := ⟨500, 450, .up, .absolute, Segmenter.defaultLength⟩

/-- How a machine homes whose configuration says nothing about it. -/
def usualHoming : HomingSettings Float := ⟨0, false, .empty, false⟩

/-- The configuration of an empty file. -/
def usual : Config := ⟨usualRobot, usualAxes, usualHoming⟩

end Config

end ScaraArm
