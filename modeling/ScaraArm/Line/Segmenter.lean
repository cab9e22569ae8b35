import ScaraArm.Line.Session

/-!
# Cutting lines up

A segmenter belongs to one arm and knows the longest piece a line may be cut into. Only
the plane the arm sweeps decides whether a line is cut and into how many pieces; carried
axes follow along. Rapid moves are never cut.
-/

namespace ScaraArm

/-- What cuts lines up for one arm. -/
structure Segmenter (α : Type) [Scalar α] where
  geometry : Geometry α
  /-- Length of the longest piece. -/
  maxLength : α
  /-- The stop button that this segmenter and every copy of it listen to. -/
  family : Nat

namespace Segmenter

variable {α : Type} [Scalar α] {k : Nat}

/-- The length of the longest piece where none is given, in millimetres. -/
def defaultLength : α := Scalar.ofInt 2

/-- No line is cut into more pieces than this. -/
def maxPieces : Nat := UInt32.size - 1

/-- A segmenter of the usual piece length. -/
def forArm (g : Geometry α) (family : Nat) : Segmenter α := ⟨g, defaultLength, family⟩

/-- The same segmenter with another piece length. A length that is not usable is passed
over. -/
def withMaxLength (s : Segmenter α) (length : α) : Segmenter α :=
  if Scalar.isPositive length then { s with maxLength := length } else s

/-- Into how many pieces a line of the given length is cut. -/
def pieces (s : Segmenter α) (distance : α) : Nat :=
  Scalar.ceilUpTo (distance / s.maxLength) maxPieces

/-- Starts a line from where the joints are to a target. -/
def start (s : Segmenter α) (target : Position α k) (joints : Joints α k) (rapid : Bool) :
    Session α k :=
  let current := s.geometry.position joints
  let delta := target - current
  let distance := delta.planarNorm
  let segmenting := !rapid && Scalar.lt s.maxLength distance
  let iterations := if segmenting then s.pieces distance else 1
  { geometry := s.geometry
    finalTarget := target
    delta := if segmenting then delta / (Scalar.ofInt iterations : α) else delta
    segmentTarget := if segmenting then current else target
    iterations
    remaining := iterations + 1
    segmenting }

end Segmenter

end ScaraArm
