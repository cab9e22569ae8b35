import ScaraArm.Axis.Mask
import ScaraArm.Axis.Settings

/-!
# Homing

Limit switches sit on the joints, while the controller counts steps of the machine's
position as it homes. When the switches have tripped, the record has to be restated in
steps of the joints: the position it holds is solved for the arm's angles, and the carried
axes start at zero.

Either all of a record changes or none of it, and both joints are solved from the record
as it was.
-/

namespace ScaraArm

/-- How the machine homes. -/
structure HomingSettings (α : Type) where
  /-- How far an axis backs off its switch. -/
  pulloff : α
  /-- Whether a homed axis is where it backed off to, instead of at its switch. -/
  forceSetOrigin : Bool
  /-- The axes that home in their positive direction. -/
  positiveAxes : AxisMask
  /-- Whether both joints home as soon as one is asked to. -/
  linkJoints : Bool
deriving Repr, DecidableEq

/-- How far, in steps, a freshly homed axis stands from its switch. -/
def HomingSettings.pulloffSteps {α : Type} [Scalar α] (settings : HomingSettings α) (i : Nat)
    (axis : AxisSettings α) : Int32 :=
  if settings.forceSetOrigin then
    axis.stepsOfUnits
      (if settings.positiveAxes.contains i then axis.maxTravel + settings.pulloff
        else -settings.pulloff)
  else 0

/-- A machine as homing sees it. -/
structure Homing (α : Type) [Scalar α] (k : Nat) where
  geometry : Geometry α
  axes : AxisTable α k
  settings : HomingSettings α

/-- Why one axis could not be set. -/
inductive AxisError (α : Type) where
  /-- The machine has no such axis. -/
  | outOfRange (e : OutOfRange)
  /-- The record holds a point that the arm cannot reach. -/
  | unreachable (e : Unreachable α)
deriving Repr, DecidableEq

namespace Homing

variable {α : Type} [Scalar α] {k : Nat}

/-- The axes that home together with the given one. -/
def group (h : Homing α k) (i : Nat) : AxisMask :=
  if h.settings.linkJoints && (i == 0 || i == 1) then (AxisMask.single 0).insert 1
  else AxisMask.single i

/-- The point that a step record holds, read as a position. -/
def recordedPoint (h : Homing α k) (record : StepRecord k) : Planar α :=
  ⟨h.axes.first.unitsOfSteps record.first, h.axes.second.unitsOfSteps record.second⟩

/-- The angles that bring the arm to the point that a step record holds. -/
def recordedAngles (h : Homing α k) (record : StepRecord k) :
    Except (Unreachable α) (JointPair α) :=
  h.geometry.inverse (h.recordedPoint record)

/-- Sets one axis after its switch has tripped: a joint to its angle, a carried axis to
zero. The other axes stay as they are. -/
def setAxis (h : Homing α k) (i : Nat) (record : StepRecord k) :
    Except (AxisError α) (StepRecord k) :=
  match i with
  | 0 =>
    match h.recordedAngles record with
    | .ok q => .ok { record with first := h.axes.first.stepsOfUnits q.q1 }
    | .error e => .error (.unreachable e)
  | 1 =>
    match h.recordedAngles record with
    | .ok q => .ok { record with second := h.axes.second.stepsOfUnits q.q2 }
    | .error e => .error (.unreachable e)
  | i + 2 =>
    match record.put (i + 2) 0 with
    | .ok record => .ok record
    | .error e => .error (.outOfRange e)

/-- The step count of a homed joint: its angle, and the distance it backed off if it was
in the cycle. -/
def jointSteps (h : Homing α k) (cycle : AxisMask) (i : Nat) (axis : AxisSettings α)
    (angle : α) : Int32 :=
  let steps := axis.stepsOfUnits angle
  if cycle.contains i then steps + h.settings.pulloffSteps i axis else steps

/-- Sets the whole machine after a homing cycle: both joints to their angles, every carried
axis to zero. A cycle of no axis changes nothing. -/
def setMachine (h : Homing α k) (cycle : AxisMask) (record : StepRecord k) :
    Except (Unreachable α) (StepRecord k) :=
  if cycle.isEmpty then .ok record
  else
    match h.recordedAngles record with
    | .ok q =>
      .ok
        { first := h.jointSteps cycle 0 h.axes.first q.q1
          second := h.jointSteps cycle 1 h.axes.second q.q2
          carried := Vector.replicate k 0 }
    | .error e => .error e

end Homing

end ScaraArm
