import ScaraArm.Geometry
import ScaraArm.Position

/-!
# Forward and inverse kinematics

Forward kinematics adds the two links as vectors. Inverse kinematics solves the triangle
of the two links and the line to the target: the law of cosines gives the angle between
the links, and the bearing of the target is corrected by the angle that the lower link
makes with that line.

A target is reachable when its squared distance from the base is at most the squared
reach; anything else, an undefined coordinate included, is refused. Targets nearer to the
base than the difference of the links have no exact solution. For them the cosine is
pulled back to its range, and the arm folds up along the target's bearing.
-/

namespace ScaraArm

/-- A point in the plane the arm sweeps, in millimetres. -/
structure Planar (α : Type) where
  x : α
  y : α
deriving Repr, DecidableEq

/-- The two driven angles in degrees. -/
structure JointPair (α : Type) where
  q1 : α
  q2 : α
deriving Repr, DecidableEq

/-- A target lies outside the disc that the arm sweeps. -/
structure Unreachable (α : Type) where
  x : α
  y : α
  /-- How far the arm reaches. -/
  reach : α
deriving Repr, DecidableEq

/-- What went wrong, in words. -/
def Unreachable.message (e : Unreachable Float) : String :=
  let x := Decimal.fixed 4 e.x
  let y := Decimal.fixed 4 e.y
  let reach := Decimal.text e.reach
  s!"target ({x}, {y}) is outside the arm reach of {reach} mm"

namespace Geometry

variable {α : Type} [Scalar α] {k : Nat}

/-- The angle of the upper link in the world. -/
def worldAngle (g : Geometry α) (q : JointPair α) : α :=
  match g.convention with
  | .absolute => q.q2
  | .relative => q.q1 + q.q2

/-- The tip of the arm at the given angles. -/
def forward (g : Geometry α) (q : JointPair α) : Planar α :=
  let a := Scalar.toRadians q.q1
  let b := Scalar.toRadians (g.worldAngle q)
  { x := g.lower * Scalar.cos a + g.upper * Scalar.cos b
    y := g.lower * Scalar.sin a + g.upper * Scalar.sin b }

/-- The squared distance of a point from the base. -/
def squaredDistance (p : Planar α) : α := p.x * p.x + p.y * p.y

/-- Whether a point lies in the disc that the arm sweeps. -/
def reaches (g : Geometry α) (p : Planar α) : Bool :=
  Scalar.le (squaredDistance p) (g.reach * g.reach)

/-- The cosine of the angle between the links at a point of the given squared distance,
by the law of cosines. Rounding at the edge of the disc and points near the base would
leave the range of a cosine, so it is pulled back. -/
def elbowCosine (g : Geometry α) (squared : α) : α :=
  Scalar.clampUnit
    ((squared - g.lower * g.lower - g.upper * g.upper) / (Scalar.ofInt 2 * g.lower * g.upper))

/-- The driven angles that bring the tip to a point, on the arm's branch. -/
def inverse (g : Geometry α) (p : Planar α) : Except (Unreachable α) (JointPair α) :=
  if g.reaches p then
    let c := g.elbowCosine (squaredDistance p)
    let bend := Scalar.acos c
    -- the angle between the lower link and the line to the target
    let beta := Scalar.atan2 (g.upper * Scalar.sin bend) (g.lower + g.upper * c)
    let bearing := Scalar.atan2 p.y p.x
    let (q1, turn) :=
      match g.elbow with
      | .up => (bearing + beta, -bend)
      | .down => (bearing - beta, bend)
    let q2 :=
      match g.convention with
      | .absolute => q1 + turn
      | .relative => turn
    .ok ⟨Scalar.toDegrees q1, Scalar.toDegrees q2⟩
  else .error ⟨p.x, p.y, g.reach⟩

/-- The direction of the lower link when the tip is at a point, in radians. -/
def direction (g : Geometry α) (p : Planar α) : α :=
  let c := g.elbowCosine (squaredDistance p)
  let beta := Scalar.atan2 (g.upper * Scalar.sin (Scalar.acos c)) (g.lower + g.upper * c)
  match g.elbow with
  | .up => Scalar.atan2 p.y p.x + beta
  | .down => Scalar.atan2 p.y p.x - beta

/-- By how much the upper link is turned away from the lower one there, in radians. -/
def turn (g : Geometry α) (p : Planar α) : α :=
  match g.elbow with
  | .up => -Scalar.acos (g.elbowCosine (squaredDistance p))
  | .down => Scalar.acos (g.elbowCosine (squaredDistance p))

/-- Inverse kinematics writes the direction and the turn down as the convention asks. -/
theorem inverse_eq {g : Geometry α} {p : Planar α} (h : g.reaches p = true) :
    g.inverse p = .ok ⟨Scalar.toDegrees (g.direction p),
      Scalar.toDegrees (match g.convention with
        | .absolute => g.direction p + g.turn p
        | .relative => g.turn p)⟩ := by
  unfold inverse direction turn
  rw [if_pos h]
  cases g.elbow with
  | up => rfl
  | down => rfl

theorem inverse_of_reaches {g : Geometry α} {p : Planar α} (h : g.reaches p = true) :
    ∃ q, g.inverse p = .ok q := ⟨_, if_pos h⟩

theorem inverse_of_not_reaches {g : Geometry α} {p : Planar α} (h : g.reaches p = false) :
    g.inverse p = .error ⟨p.x, p.y, g.reach⟩ := if_neg (Bool.eq_false_iff.mp h)

/-- The position of the machine at the given joints. Carried axes are taken over. -/
def position (g : Geometry α) (q : Joints α k) : Position α k :=
  let tip := g.forward ⟨q.q1, q.q2⟩
  ⟨tip.x, tip.y, q.carried⟩

/-- The joints that bring the machine to a position. Carried axes are taken over. -/
def joints (g : Geometry α) (p : Position α k) : Except (Unreachable α) (Joints α k) :=
  (g.inverse ⟨p.x, p.y⟩).map fun q => ⟨q.q1, q.q2, p.carried⟩

end Geometry

end ScaraArm
