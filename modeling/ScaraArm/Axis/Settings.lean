import ScaraArm.Kinematics

/-!
# Steps and units

The controller counts motor steps; kinematics measures degrees and millimetres. Each axis
has a scale between the two. The driven axes are scaled per degree, the carried ones per
millimetre.
-/

namespace ScaraArm

/-- The scale and the travel of one axis. -/
structure AxisSettings (α : Type) where
  /-- Motor steps per unit: per degree on a driven axis, per millimetre on a carried one. -/
  stepsPerUnit : α
  /-- Length of the travel, held as a negative number. -/
  maxTravel : α
deriving Repr, DecidableEq

/-- The settings of every axis. -/
abbrev AxisTable (α : Type) (k : Nat) := PerAxis (AxisSettings α) k

/-- The step count of every axis. -/
abbrev StepRecord (k : Nat) := PerAxis Int32 k

namespace AxisSettings

variable {α : Type} [Scalar α]

/-- The units that a step count stands for. -/
def unitsOfSteps (axis : AxisSettings α) (steps : Int32) : α :=
  Scalar.ofInt steps.toInt / axis.stepsPerUnit

/-- The step count nearest to a number of units. -/
def stepsOfUnits (axis : AxisSettings α) (units : α) : Int32 :=
  Scalar.toStep (units * axis.stepsPerUnit)

end AxisSettings

namespace AxisTable

variable {α : Type} [Scalar α] {k : Nat}

/-- The joints that a step record stands for. -/
def jointsOfSteps (axes : AxisTable α k) (steps : StepRecord k) : Joints α k :=
  ⟨axes.zipWith AxisSettings.unitsOfSteps steps⟩

/-- The step record nearest to the given joints. -/
def stepsOfJoints (axes : AxisTable α k) (q : Joints α k) : StepRecord k :=
  axes.zipWith AxisSettings.stepsOfUnits q.toPerAxis

/-- The position of the machine at a step record. -/
def positionOfSteps (axes : AxisTable α k) (g : Geometry α) (steps : StepRecord k) :
    Position α k :=
  g.position (axes.jointsOfSteps steps)

/-- The joints of the folded pose in which the machine powers up. -/
def parkedJoints (k : Nat) : Joints α k :=
  { Joints.zero k with second := Scalar.ofInt (-90) }

/-- The step record of the folded pose. -/
def parked (axes : AxisTable α k) : StepRecord k := axes.stepsOfJoints (parkedJoints k)

end AxisTable

end ScaraArm
