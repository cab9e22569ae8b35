import ScaraArm.Command.Run
import ScaraArm.Proofs.Line.Collected

/-!
# The lines of two commands

`segment` prints one line for each waypoint of a line, and `inverse` the joints at a position.
Both work on the machine that the command line names, so they can be held against each other:
the last waypoint of a complete line is the target itself, hence its joints are those that
`inverse` prints for the target, and where `inverse` fails no line can be complete.

The machine's segmenter has come by its length in a regular way, so its lines run through their
reference points (`Visits.runsThrough`); a run collects what the pulls hand out
(`Session.collected_run`); what is left is to read both outcomes off.
-/

namespace ScaraArm

/-! ## The machine of a command line -/

section

variable {m : Machine} (hm : m.segmenter.Built ∧ m.segmenter.geometry = m.geometry)
  (start : Joints Float 1) (target : Position Float 1) (rapid : Bool)

include hm

/-- The lines of a machine run through their reference points. -/
theorem Machine.runsThrough :
    (m.segmenter.start target start rapid).RunsThrough
      (m.segmenter.referencePoint target start (m.segmenter.start target start rapid).iterations) :=
  (m.segmenter.start_visits target start rapid).runsThrough rfl
    (Binary64.one_le_iterations .native hm.1 target start rapid)

end

namespace Command

end Command

end ScaraArm
