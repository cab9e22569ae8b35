import ScaraArm.Axis.Homing

/-!
# Homing in place

The controller has one step record and overwrites it while it homes. An operation that fails
stops where it is, and what it has written by then stays written; so that a failure leaves no
half of a record behind, everything that can fail comes before the first write.

Both joints are solved before the first of them is overwritten, because the record of the
second one's point includes the count of the first.
-/

namespace ScaraArm

/-- An operation on a step record that is overwritten as it goes. -/
abbrev Overwrite (ε : Type) (k : Nat) := ExceptT ε (StateM (StepRecord k))

namespace Overwrite

variable {ε β : Type} {k : Nat}

/-- Carries an operation out on a record: what came of it, and the record it leaves. -/
def perform (op : Overwrite ε k β) (record : StepRecord k) : Except ε β × StepRecord k :=
  (op.run.run record).run

/-- A value, or the failure to find one. -/
def attempt (result : Except ε β) : Overwrite ε k β := ExceptT.mk (pure result)

end Overwrite

namespace Homing

open Overwrite

variable {α : Type} [Scalar α] {k : Nat}

/-- The step count of an axis at the given angles: a joint's angle, and zero for a carried
axis. -/
def angleSteps (h : Homing α k) (q : JointPair α) : Nat → Int32
  | 0 => h.axes.first.stepsOfUnits q.q1
  | 1 => h.axes.second.stepsOfUnits q.q2
  | _ => 0

/-- The step count of an axis after a homing cycle. -/
def homedSteps (h : Homing α k) (cycle : AxisMask) (q : JointPair α) : Nat → Int32
  | 0 => h.jointSteps cycle 0 h.axes.first q.q1
  | 1 => h.jointSteps cycle 1 h.axes.second q.q2
  | _ => 0

/-- Overwrites one axis after its switch has tripped. -/
def overwriteAxis (h : Homing α k) (i : Nat) : Overwrite (AxisError α) k Unit := do
  let record ← get
  let steps ← if i < 2 then
      attempt (((h.recordedAngles record).map (h.angleSteps · i)).mapError .unreachable)
    else pure 0
  set (← attempt ((record.put i steps).mapError .outOfRange))

/-- Overwrites the whole machine after a homing cycle, axis by axis. -/
def overwriteMachine (h : Homing α k) (cycle : AxisMask) : Overwrite (Unreachable α) k Unit := do
  unless cycle.isEmpty do
    let q ← attempt (h.recordedAngles (← get))
    (List.range (k + 2)).forM fun i => modify (·.set i (h.homedSteps cycle q i))

end Homing

end ScaraArm
