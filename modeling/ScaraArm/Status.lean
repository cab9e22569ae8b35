import ScaraArm.Axis.Settings
import ScaraArm.Document.JsonText

/-!
# Status report

What a status report tells about a SCARA machine: the lengths of its links, which never
change, and the angles that its joints are at.
-/

namespace ScaraArm

/-- The values of a status report. -/
structure StatusReport (α : Type) where
  /-- Length of the lower link. -/
  lower : α
  /-- Length of the upper link. -/
  upper : α
  /-- Angle of the lower link in degrees. -/
  q1 : α
  /-- Angle of the upper link in degrees. -/
  q2 : α
deriving Repr, DecidableEq

namespace StatusReport

/-- The name of the kinematics. -/
def kinematics : String := "scara"

/-- The version of the kinematics. -/
def version : String := "0.1.0"

/-- The report of a machine at a step record. -/
def ofSteps {α : Type} [Scalar α] {k : Nat} (g : Geometry α) (axes : AxisTable α k)
    (steps : StepRecord k) : StatusReport α :=
  { lower := g.lower
    upper := g.upper
    q1 := axes.first.unitsOfSteps steps.first
    q2 := axes.second.unitsOfSteps steps.second }

/-- The document of a report. -/
def toValue (r : StatusReport Float) : Document.Value :=
  .record
    [("robot",
        .record
          [("kinematics", .text kinematics), ("version", .text version),
            ("l1", .real r.lower), ("l2", .real r.upper)]),
      ("joints", .record [("q1", .real r.q1), ("q2", .real r.q2)])]

end StatusReport

end ScaraArm
