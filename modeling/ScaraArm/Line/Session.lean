import ScaraArm.Kinematics

/-!
# A line being cut up

A straight move of the tip is a curve in the joints, so a long line is handed out in
short pieces, each solved for its joints on its own. A session holds what is left of one
line. Each pull moves on to the next waypoint and hands out its joints; the last waypoint
is the target itself, whatever rounding the steps before it have collected. One more pull
than there are waypoints tells that the line is complete.

A line ends early in two ways. A waypoint out of reach is reported once. A request to stop
is noticed at the end of a pull, which then hands out nothing.
-/

namespace ScaraArm

/-- What is left of one line. -/
structure Session (α : Type) [Scalar α] (k : Nat) where
  geometry : Geometry α
  /-- Where the line ends. -/
  finalTarget : Position α k
  /-- From one waypoint to the next. -/
  delta : Position α k
  /-- The waypoint reached last; the start of the line before the first pull. -/
  segmentTarget : Position α k
  /-- How many waypoints a full run hands out. -/
  iterations : Nat
  /-- How many pulls are left, the one that tells the end included. -/
  remaining : Nat
  /-- Whether the line is cut up at all. -/
  segmenting : Bool

/-- What a pull hands out. -/
inductive Pull (α : Type) (k : Nat) where
  /-- The joints of the next waypoint. -/
  | waypoint (q : Joints α k)
  /-- The next waypoint is out of reach. -/
  | unreachable (e : Unreachable α)
  /-- The line is over. -/
  | finished
deriving Repr, DecidableEq

namespace Session

variable {α : Type} [Scalar α] {k : Nat}

/-- Whether the line is over. -/
def isFinished (s : Session α k) : Bool := s.remaining == 0

/-- At most so many more waypoints or failures are to come. -/
def upperBound (s : Session α k) : Nat := s.remaining - 1

/-- Ends the line. -/
def finish (s : Session α k) : Session α k := { s with remaining := 0 }

/-- Moves on by one pull: one delta further, or onto the target once it is the last. -/
def advance (s : Session α k) : Session α k :=
  let left := s.remaining - 1
  { s with
    remaining := left
    segmentTarget :=
      if s.segmenting && decide (1 < left) then s.segmentTarget + s.delta else s.finalTarget }

/-- Takes the next waypoint; `stop` tells whether a request to stop is pending. -/
def pull (stop : Bool) (s : Session α k) : Pull α k × Session α k :=
  if s.isFinished then (.finished, s)
  else
    let next := s.advance
    match next.geometry.joints next.segmentTarget with
    | .error e => (.unreachable e, next.finish)
    | .ok q => if next.isFinished || stop then (.finished, next.finish) else (.waypoint q, next)

/-- The joints handed out before the line ends, and the failure that ended it, if one did.
The first argument bounds the number of pulls; the joints come behind those of the last. -/
def drain : Nat → Session α k → List (Joints α k) →
    List (Joints α k) × Option (Unreachable α)
  | 0, _, taken => (taken.reverse, none)
  | fuel + 1, s, taken =>
    match s.pull false with
    | (.waypoint q, s) => drain fuel s (q :: taken)
    | (.unreachable e, _) => (taken.reverse, some e)
    | (.finished, _) => (taken.reverse, none)

/-- Runs a line to its end without a stop. -/
def run (s : Session α k) : List (Joints α k) × Option (Unreachable α) :=
  s.drain s.remaining []

end Session

end ScaraArm
