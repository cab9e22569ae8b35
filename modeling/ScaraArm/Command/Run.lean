import ScaraArm.Command.Task
import ScaraArm.Failure
import ScaraArm.Status

/-!
# Carrying tasks out

A task first needs its machine: the configuration is loaded, its elbow and convention are
replaced if others were asked for, and it is checked before the machine is built. The
answer is a list of lines, one document each, and perhaps a failure behind them.
-/

namespace ScaraArm.Command

/-- A line of output. -/
inductive Answer where
  | cartesian (p : Position Float 1)
  | joints (q : Joints Float 1)
  /-- The joints of a waypoint, counted from zero. -/
  | waypoint (index : Nat) (q : Joints Float 1)
  | status (r : StatusReport Float)
  | record (steps : StepRecord 1)

namespace Answer

/-- The document of the values of all axes. -/
def values (v : PerAxis Float 1) : Document.Value := .list (v.toList.map .real)

/-- The document of a line. -/
def toValue : Answer → Document.Value
  | .cartesian p => .record [("cartesian", values p.toPerAxis)]
  | .joints q => .record [("joints", values q.toPerAxis)]
  | .waypoint index q => .record [("index", .integer index), ("joints", values q.toPerAxis)]
  | .status r => r.toValue
  | .record steps =>
    .record [("position", .list (steps.toList.map fun n => .integer n.toInt))]

end Answer

/-- Why a task was not carried out to its end. -/
inductive Error where
  | load (e : Config.LoadError)
  | fault (e : Config.Fault)
  | build (e : Machine.BuildError)
  /-- There are not as many values as axes. -/
  | valueCount (found : Nat)
  /-- A position is out of reach. -/
  | softLimit (e : Unreachable Float)
  /-- A waypoint is out of reach. -/
  | softLimitAt (index : Nat) (e : Unreachable Float)
  /-- There is no such axis to home. -/
  | noSuchAxis (axis : Nat)

/-- The failure that is told. -/
def Error.failure : Error → Failure
  | .load e => e.failure
  | .fault e => e.failure
  | .build e => e.failure
  | .valueCount found =>
    ⟨s!"expected {Config.axisCount} values, got {found}", some sizeMismatch⟩
  | .softLimit e => ⟨"soft limit", some e.message⟩
  | .softLimitAt index e => ⟨s!"soft limit at waypoint {index}", some e.message⟩
  | .noSuchAxis axis => ⟨s!"axis {axis} out of range", none⟩

/-- What carrying a task out has brought. -/
structure Outcome where
  answers : List Answer
  error : Option Error

namespace Outcome

/-- One line and no failure. -/
def one (a : Answer) : Outcome := ⟨[a], none⟩

/-- The exit code: zero exactly if there is no failure. -/
def exitCode (o : Outcome) : UInt32 := if o.error.isSome then 1 else 0

/-- A failure before any line. -/
def fail (e : Error) : Outcome := ⟨[], some e⟩

/-- The outcome of a step that may fail, and else leads on. -/
def after {ε α : Type} (step : Except ε α) (error : ε → Error) (next : α → Outcome) :
    Outcome :=
  match step with
  | .ok a => next a
  | .error e => fail (error e)

end Outcome

open Outcome (after)

/-- One value for each axis. -/
def axisValues {α : Type} (values : List α) : Except Nat (PerAxis α 1) :=
  match PerAxis.ofList? 1 values with
  | some v => .ok v
  | none => .error values.length

/-- The lines of waypoints, counted from zero. -/
def waypointLines (waypoints : List (Joints Float 1)) : List Answer :=
  waypoints.zipIdx.map fun (q, index) => .waypoint index q

/-- Carries a task out on a machine. -/
def Task.run (m : Machine) : Task → Outcome
  | .forward angles =>
    after (axisValues angles) .valueCount fun q => .one (.cartesian (m.geometry.position ⟨q⟩))
  | .inverse position =>
    after (axisValues position) .valueCount fun p =>
      after (m.geometry.joints ⟨p⟩) .softLimit fun q => .one (.joints q)
  | .segment start target rapid =>
    after (axisValues start) .valueCount fun q =>
      after (axisValues target) .valueCount fun p =>
        let (waypoints, ending) := (m.segmenter.start ⟨p⟩ ⟨q⟩ rapid).run
        ⟨waypointLines waypoints, ending.map (.softLimitAt waypoints.length)⟩
  | .status steps =>
    after
      (match steps with
        | some steps => axisValues steps
        | none => .ok m.axes.parked)
      .valueCount fun steps => .one (.status (.ofSteps m.geometry m.axes steps))
  | .home steps cycle axis =>
    after (axisValues steps) .valueCount fun record =>
      match axis with
      | none => after (m.homing.setMachine cycle record) .softLimit fun r => .one (.record r)
      | some i =>
        after (m.homing.setAxis i record)
          (fun
            | .outOfRange _ => .noSuchAxis i
            | .unreachable e => .softLimit e)
          fun r => .one (.record r)

namespace Invocation

/-- The configuration of the machine that is meant, given the bytes of files by their paths. -/
def configuration (files : String → Option ByteArray) (i : Invocation) :
    Except Config.LoadError Config := do
  let c ← match i.config with
    | some path => Config.load files path
    | none => .ok Config.usual
  let robot :=
    { c.robot with
      elbow := i.elbow.getD c.robot.elbow
      convention := i.convention.getD c.robot.convention }
  return { c with robot }

/-- The machine that is meant. -/
def machine (files : String → Option ByteArray) (i : Invocation) : Except Error Machine :=
  match i.configuration files with
  | .error e => .error (.load e)
  | .ok c =>
    match c.validate with
    | .error e => .error (.fault e)
    | .ok () =>
      match Machine.build c with
      | .error e => .error (.build e)
      | .ok m => .ok m

/-- Carries a task out on the machine that is meant. -/
def run (files : String → Option ByteArray) (i : Invocation) : Outcome :=
  after (i.machine files) id i.task.run

end Invocation

end ScaraArm.Command
