import ScaraArm.Command.Grammar
import ScaraArm.Config.Basic
import ScaraArm.Decimal.Read

/-!
# Tasks

What a command line asks for: one of five tasks, and the machine to carry it out on.
-/

namespace ScaraArm.Command

/-- What is to be done. -/
inductive Task where
  /-- Tell the position at the given joints. -/
  | forward (angles : List Float)
  /-- Tell the joints at the given position. -/
  | inverse (position : List Float)
  /-- Cut up a line from the given joints to the given position. -/
  | segment (start target : List Float) (rapid : Bool)
  /-- Report the status at the given step record, or where the machine powers up. -/
  | status (steps : Option (List Int32))
  /-- Set a step record after homing: the one axis given, or all of a cycle. -/
  | home (steps : List Int32) (cycle : AxisMask) (axis : Option Nat)

/-- A task and the machine to carry it out on. -/
structure Invocation where
  /-- The file with the configuration; without one, the usual machine is meant. -/
  config : Option String
  /-- The elbow to use in place of the configured one. -/
  elbow : Option Elbow
  /-- The convention to use in place of the configured one. -/
  convention : Option AngleConvention
  task : Task

/-- Reads a step count. -/
def readSteps? (s : String) : Option Int32 :=
  match Decimal.readInt? s with
  | some n =>
    if Int32.minValue.toInt ≤ n ∧ n ≤ Int32.maxValue.toInt then some (Int32.ofInt n) else none
  | none => none

/-- Reads a cycle of axes from the number of its bits. -/
def readCycle? (s : String) : Option AxisMask :=
  match Decimal.readInt? s with
  | some n => if 0 ≤ n ∧ n < 256 then some ⟨UInt8.ofNat n.toNat⟩ else none
  | none => none

/-- Reads the number of an axis. It has to fit sixty-four bits. -/
def readAxis? (s : String) : Option Nat := (Decimal.readNat? s).filter (· < UInt64.size)

/-- An option that takes one value. -/
def single (name : String) (accepts : String → Bool) : Parameter :=
  ⟨name, .one, false, false, accepts⟩

/-- A parameter that takes a number for each axis. -/
def perAxis (name : String) (accepts : String → Bool) : Parameter :=
  ⟨name, .list Config.axisCount, true, true, accepts⟩

/-- A parameter that takes a double for each axis. -/
def floats (name : String) : Parameter := perAxis name fun s => (Decimal.readFloat? s).isSome

/-- The option that takes a step record. -/
def stepRecord : Parameter := perAxis "steps" fun s => (readSteps? s).isSome

/-- The options that may stand anywhere. -/
def commonOptions : List Parameter :=
  [single "config" fun s => !s.isEmpty, single "elbow" fun s => (Elbow.parse? s).isSome,
    single "joint-angles" fun s => (AngleConvention.parse? s).isSome]

/-- The commands, with their own options and what they take besides. -/
def commands : List (String × Level) :=
  [("forward", ⟨commonOptions, some (floats "angles")⟩),
    ("inverse", ⟨commonOptions, some (floats "position")⟩),
    ("segment",
      ⟨commonOptions ++
          [floats "from", floats "to", ⟨"rapid", .switch, false, false, fun _ => true⟩],
        none⟩),
    ("status", ⟨commonOptions ++ [stepRecord], none⟩),
    ("home",
      ⟨commonOptions ++
          [stepRecord, single "cycle" fun s => (readCycle? s).isSome,
            single "axis" fun s => (readAxis? s).isSome],
        none⟩)]

namespace Reading

/-- The doubles given for a parameter. -/
def floats (r : Reading) (name : String) : List Float :=
  (r.values name).filterMap Decimal.readFloat?

/-- The step counts given. -/
def steps (r : Reading) : List Int32 := (r.values "steps").filterMap readSteps?

/-- What was given for an option that takes one value. -/
def value? {α : Type} (r : Reading) (name : String) (read : String → Option α) : Option α :=
  (r.values name).head? >>= read

end Reading

/-- The cycle of both joints, which is homed if none is named. -/
def usualCycle : AxisMask := (AxisMask.single 0).insert 1

/-- The task of a command whose arguments have been read. -/
def Task.ofReading (command : String) (r : Reading) : Except Stop Task :=
  match command with
  | "forward" => .ok (.forward (r.floats "angles"))
  | "inverse" => .ok (.inverse (r.floats "position"))
  | "segment" => .ok (.segment (r.floats "from") (r.floats "to") (r.isGiven "rapid"))
  | "status" => .ok (.status (if r.isGiven "steps" then some r.steps else none))
  | "home" =>
    if r.isGiven "axis" && r.isGiven "cycle" then .error .usage
    else
      let cycle := (r.value? "cycle" readCycle?).getD usualCycle
      .ok (.home r.steps cycle (r.value? "axis" readAxis?))
  | _ => .error .usage

/-- The topic that help is asked for by name. -/
def helpTopic : List String → Except Stop Invocation
  | [] => .error (.help none)
  | [topic] =>
    if topic == "help" || commands.any (·.1 == topic) then .error (.help (some topic))
    else .error .usage
  | _ => .error .usage

/-- Reads a command line. Of an option given both in front of the command and behind it,
the one behind counts. -/
def Invocation.ofArguments (args : List String) : Except Stop Invocation := do
  let names := "help" :: commands.map (·.1)
  let (outer, command) ← Reading.readUntil names (.start ⟨commonOptions, none⟩ none) args
  match command with
  | none => throw .usage
  | some ("help", topics) => helpTopic topics
  | some (name, rest) =>
    match commands.lookup name with
    | none => throw .usage
    | some level =>
      let inner ← (Reading.start level (some name)).readAll rest
      let outer ← outer.resolve
      let task ← Task.ofReading name inner
      let common {α : Type} (name : String) (read : String → Option α) : Option α :=
        (inner.value? name read).or (outer.value? name read)
      return {
        config := common "config" some
        elbow := common "elbow" Elbow.parse?
        convention := common "joint-angles" AngleConvention.parse?
        task }

end ScaraArm.Command
