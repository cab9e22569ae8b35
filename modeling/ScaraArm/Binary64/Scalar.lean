import ScaraArm.Binary64.Exact
import ScaraArm.Scalar

/-!
# Doubles as scalars

The arithmetic the program runs on. Sums, products and quotients are the rounded
ones of the double format; counts and the hypotenuse are exact up to one rounding.
Only the functions of the circle differ in their last digits from machine to machine,
so they are a parameter: what holds for all of them holds on every machine.
-/

namespace ScaraArm

namespace Binary64

/-- The functions of the circle, as some machine computes them on doubles. -/
structure Circular where
  /-- Sine of an angle in radians. -/
  sin : Float → Float
  /-- Cosine of an angle in radians. -/
  cos : Float → Float
  /-- The angle in `[0, π]` with the given cosine. -/
  acos : Float → Float
  /-- The bearing of the point `(x, y)`, given as `atan2 y x`. -/
  atan2 : Float → Float → Float

/-- The functions of the machine that the program runs on. -/
def Circular.native : Circular := ⟨Float.sin, Float.cos, Float.acos, Float.atan2⟩

/-- Doubles with the given functions of the circle. -/
abbrev scalar (circular : Circular) : Scalar Float where
  ofInt := ofInt
  le x y := x ≤ y
  lt x y := x < y
  isFinite := Float.isFinite
  hypot := hypot
  sin := circular.sin
  cos := circular.cos
  acos := circular.acos
  atan2 := circular.atan2
  -- π/180 and 180/π, each rounded once
  radiansPerDegree := Float.ofBits 0x3F91DF46A2529D39
  degreesPerRadian := Float.ofBits 0x404CA5DC1A63C1F8
  toStep := toStep
  ceilUpTo := ceilUpTo

end Binary64

instance : Scalar Float := Binary64.scalar .native

end ScaraArm
