import ScaraArm.Config.Basic
import ScaraArm.Document.JsonText

/-!
# Writing configurations

A configuration as a document: every field is written, in the order in which a list
without keys would give them.
-/

namespace ScaraArm

open Document

/-- The document of an axis. -/
def AxisSettings.toValue (axis : AxisSettings Float) : Value :=
  .record [("steps_per_mm", .real axis.stepsPerUnit), ("max_travel", .real axis.maxTravel)]

/-- The document of a mask: its bits as a number. -/
def AxisMask.toValue (m : AxisMask) : Value := .integer m.bits.toNat

/-- The document of the homing settings. -/
def HomingSettings.toValue (h : HomingSettings Float) : Value :=
  .record
    [("pulloff", .real h.pulloff), ("force_set_origin", .boolean h.forceSetOrigin),
      ("dir_mask", h.positiveAxes.toValue), ("link_joints", .boolean h.linkJoints)]

/-- The document of an arm. -/
def RobotConfig.toValue (r : RobotConfig) : Value :=
  .record
    [("l1", .real r.lower), ("l2", .real r.upper), ("elbow", .text r.elbow.name),
      ("joint_angles", .text r.convention.name), ("max_segment_length", .real r.maxSegmentLength)]

namespace Config

/-- The document of a configuration. -/
def toValue (c : Config) : Value :=
  .record
    [("robot", c.robot.toValue), ("axes", .list (c.axes.map AxisSettings.toValue)),
      ("homing", c.homing.toValue)]

/-- A configuration as JSON text. -/
def toJson (c : Config) : String := c.toValue.toJson

end Config

end ScaraArm
