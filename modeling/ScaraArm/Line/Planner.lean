import ScaraArm.Line.Segmenter

/-!
# Lines and stop buttons

Several lines may be under way at once. Every segmenter has a stop button, which it shares
with its copies and with the lines they start. Pressing it stops every such line at its
next pull; starting another line releases it again.

The planner is the whole of that state: which buttons are pressed, and what is left of the
line in each slot.
-/

namespace ScaraArm

/-- A line under way. -/
structure ActiveLine (α : Type) [Scalar α] (k : Nat) where
  /-- The stop button the line listens to. -/
  family : Nat
  /-- What is left of the line. -/
  session : Session α k

/-- The stop buttons and the lines under way. -/
structure Planner (α : Type) [Scalar α] (k : Nat) where
  /-- The buttons that are pressed. -/
  pressed : List Nat
  /-- The line in each slot. -/
  lines : List (Nat × ActiveLine α k)

namespace Planner

variable {α : Type} [Scalar α] {k : Nat}

/-- No button pressed and no line under way. -/
def idle : Planner α k := ⟨[], []⟩

/-- Whether a button is pressed. -/
def isStopped (p : Planner α k) (family : Nat) : Bool := p.pressed.contains family

/-- Presses a button. -/
def stop (p : Planner α k) (family : Nat) : Planner α k :=
  { p with pressed := family :: p.pressed }

/-- Releases a button. -/
def release (p : Planner α k) (family : Nat) : Planner α k :=
  { p with pressed := p.pressed.filter (· != family) }

/-- The line in a slot. -/
def line? (p : Planner α k) (slot : Nat) : Option (ActiveLine α k) := p.lines.lookup slot

/-- Puts a line into a slot, in place of the one that was there. -/
def setLine (p : Planner α k) (slot : Nat) (line : ActiveLine α k) : Planner α k :=
  { p with lines := (slot, line) :: p.lines.filter (·.1 != slot) }

/-- Starts a line in a slot and releases its segmenter's button. -/
def start (p : Planner α k) (slot : Nat) (s : Segmenter α) (target : Position α k)
    (joints : Joints α k) (rapid : Bool) : Planner α k :=
  (p.release s.family).setLine slot ⟨s.family, s.start target joints rapid⟩

/-- Pulls the next waypoint of the line in a slot, if there is one. -/
def pull? (p : Planner α k) (slot : Nat) : Option (Pull α k × Planner α k) :=
  (p.line? slot).map fun line =>
    let (taken, session) := line.session.pull (p.isStopped line.family)
    (taken, p.setLine slot { line with session })

end Planner

end ScaraArm
