/-!
# Scalars

Arm kinematics is arithmetic, two comparisons and a handful of functions of the
circle. `Scalar` names exactly these operations and assumes no law about them, so
one definition of the arm serves every arithmetic: doubles when it runs, the real
numbers when its geometry is reasoned about, or an arithmetic whose circular
functions are left unknown.
-/

namespace ScaraArm

/-- The operations of a number type that lengths, angles and travel are measured in. -/
class Scalar (α : Type) extends Add α, Sub α, Mul α, Div α, Neg α where
  /-- The number nearest to an integer. -/
  ofInt : Int → α
  /-- Whether the first number is at most the second. -/
  le : α → α → Bool
  /-- Whether the first number is below the second. -/
  lt : α → α → Bool
  /-- Whether the number is neither infinite nor undefined. -/
  isFinite : α → Bool
  /-- Length of the hypotenuse over two legs. -/
  hypot : α → α → α
  /-- Sine of an angle in radians. -/
  sin : α → α
  /-- Cosine of an angle in radians. -/
  cos : α → α
  /-- The angle in `[0, π]` with the given cosine. -/
  acos : α → α
  /-- The bearing of the point `(x, y)`, given as `atan2 y x`. -/
  atan2 : α → α → α
  /-- One degree in radians. -/
  radiansPerDegree : α
  /-- One radian in degrees. -/
  degreesPerRadian : α
  /-- The nearest step count: a half goes away from zero, and a count that does not fit
  becomes the nearer end of the range. -/
  toStep : α → Int32
  /-- The least count not below the number, or the given limit if that is smaller. -/
  ceilUpTo : α → Nat → Nat

-- a number type that has its own operations is to be read with those
attribute [instance (low)] Scalar.toAdd Scalar.toSub Scalar.toMul Scalar.toDiv Scalar.toNeg

namespace Scalar

variable {α : Type} [Scalar α]

/-- Zero, as a number of the scalar type. -/
def zero : α := ofInt 0

/-- Lengths and scales are usable when they are finite and above zero. -/
def isPositive (x : α) : Bool := isFinite x && lt zero x

/-- Pulls a number back into `[-1, 1]`. An undefined number stays as it is. -/
def clampUnit (x : α) : α :=
  if lt x (ofInt (-1)) then ofInt (-1) else if lt (ofInt 1) x then ofInt 1 else x

/-- An angle given in degrees, in radians. -/
def toRadians (degrees : α) : α := degrees * radiansPerDegree

/-- An angle given in radians, in degrees. -/
def toDegrees (radians : α) : α := radians * degreesPerRadian

end Scalar

end ScaraArm
