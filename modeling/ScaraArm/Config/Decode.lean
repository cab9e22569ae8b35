import ScaraArm.Config.Basic
import ScaraArm.Document.Json
import ScaraArm.Document.Toml

/-!
# Reading configurations

A configuration is read from a document in either format. A table may name its fields or,
written as a list, give them in order. Fields that are left out have their usual values,
unknown fields are passed over, and a field that is given twice is refused. A list that goes
on behind the last field is refused in JSON, and in TOML it is not looked at from there on.
-/

namespace ScaraArm

open Document

/-- The formats of configuration files. -/
inductive Config.Format where
  | toml
  | json
deriving Repr, DecidableEq

namespace Document

/-- The fields of a document that is to have the given ones. In a list they come in order, and
what follows them is refused in JSON and left unread in TOML. In a table the fields without one
of the names are passed over. A date is a table too, of parts that have none of the names. -/
def fields? (format : Config.Format) (names : List String) :
    Value → Option (List (String × Value))
  | .instant => some []
  | .list items =>
    if format = .toml ∨ items.length ≤ names.length then some (names.zip items) else none
  | .table entries => do
    let entries ← entries.mapM fun (key, v) => key.map (·, v)
    let (known, others) := entries.partition fun entry => names.contains entry.1
    if (known.map (·.1)).Nodup ∧ others.all (·.2.isReadable) then some known else none
  | _ => none

/-- Reads a field that has to be there. -/
def required {α : Type} (fields : List (String × Value)) (name : String)
    (decode : Value → Option α) : Option α :=
  fields.lookup name >>= decode

/-- Reads a field, or takes its usual value if it is left out. -/
def withDefault {α : Type} (fields : List (String × Value)) (name : String) (usual : α)
    (decode : Value → Option α) : Option α :=
  match fields.lookup name with
  | some v => decode v
  | none => some usual

/-- Reads one of several names. The name may also be the only key of a table with nothing
behind it: no value in JSON, an empty list or table in TOML. -/
def choice? {α : Type} (format : Config.Format) (parse : String → Option α) :
    Value → Option α
  | .text s => parse s
  | .table [(some key, v)] =>
    match format, v with
    | .json, .null | .toml, .list [] | .toml, .table [] => parse key
    | _, _ => none
  | _ => none

end Document

/-- The elbow of a name that is written exactly so. -/
def Elbow.ofName? (s : String) : Option Elbow :=
  if s = "up" then some .up else if s = "down" then some .down else none

/-- The convention of a name that is written exactly so. -/
def AngleConvention.ofName? (s : String) : Option AngleConvention :=
  if s = "absolute" then some .absolute else if s = "relative" then some .relative else none

/-- Reads the settings of an axis. Only the travel may be left out. -/
def AxisSettings.ofValue? (format : Config.Format) (v : Value) : Option (AxisSettings Float) := do
  let fields ← fields? format ["steps_per_mm", "max_travel"] v
  let stepsPerUnit ← required fields "steps_per_mm" Value.float?
  let maxTravel ← withDefault fields "max_travel" Config.usualTravel Value.float?
  some { stepsPerUnit, maxTravel }

/-- Reads a mask from the number of its bits. -/
def AxisMask.ofValue? (v : Value) : Option AxisMask := v.byte?.map AxisMask.mk

/-- Reads the homing settings. -/
def HomingSettings.ofValue? (format : Config.Format) (v : Value) :
    Option (HomingSettings Float) := do
  let usual := Config.usualHoming
  let fields ← fields? format ["pulloff", "force_set_origin", "dir_mask", "link_joints"] v
  let pulloff ← withDefault fields "pulloff" usual.pulloff Value.float?
  let forceSetOrigin ← withDefault fields "force_set_origin" usual.forceSetOrigin Value.bool?
  let positiveAxes ← withDefault fields "dir_mask" usual.positiveAxes AxisMask.ofValue?
  let linkJoints ← withDefault fields "link_joints" usual.linkJoints Value.bool?
  some { pulloff, forceSetOrigin, positiveAxes, linkJoints }

/-- Reads what a configuration says about the arm. -/
def RobotConfig.ofValue? (format : Config.Format) (v : Value) : Option RobotConfig := do
  let usual := Config.usualRobot
  let fields ← fields? format ["l1", "l2", "elbow", "joint_angles", "max_segment_length"] v
  let lower ← withDefault fields "l1" usual.lower Value.float?
  let upper ← withDefault fields "l2" usual.upper Value.float?
  let elbow ← withDefault fields "elbow" usual.elbow (choice? format Elbow.ofName?)
  let convention ←
    withDefault fields "joint_angles" usual.convention (choice? format AngleConvention.ofName?)
  let maxSegmentLength ←
    withDefault fields "max_segment_length" usual.maxSegmentLength Value.float?
  some { lower, upper, elbow, convention, maxSegmentLength }

namespace Config

/-- Reads the list of axes. -/
def axesOfValue? (format : Format) (v : Value) : Option (List (AxisSettings Float)) :=
  v.items? >>= List.mapM (AxisSettings.ofValue? format)

/-- Reads a configuration from a document. -/
def ofValue? (format : Format) (v : Value) : Option Config := do
  let fields ← fields? format ["robot", "axes", "homing"] v
  let robot ← withDefault fields "robot" usualRobot (RobotConfig.ofValue? format)
  let axes ← withDefault fields "axes" usualAxes (axesOfValue? format)
  let homing ← withDefault fields "homing" usualHoming (HomingSettings.ofValue? format)
  some { robot, axes, homing }

/-- Reads a configuration from a TOML text. -/
def ofToml? (s : String) : Option Config := Toml.parse? s >>= ofValue? .toml

/-- Reads a configuration from a JSON text with the given way to turn numerals into
doubles. -/
def ofJsonWith? (number : Numeral → Option Float) (s : String) : Option Config :=
  Json.parseWith? number s >>= ofValue? .json

/-- Reads a configuration from a JSON text. -/
def ofJson? (s : String) : Option Config := ofJsonWith? Numeral.stepwise? s

end Config

end ScaraArm
