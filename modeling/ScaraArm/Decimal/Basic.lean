import ScaraArm.Binary64.Exact

/-!
# Decimal numbers

A decimal is a sign, a coefficient and a power of ten, held exactly. It stands
between the text of a number and the double nearest to it.
-/

namespace ScaraArm

/-- The number `±coefficient · 10^exponent`. The sign is kept apart so that minus zero
can be told from zero. -/
structure Decimal where
  /-- Whether the number is written with a minus sign. -/
  negative : Bool
  /-- The digits, read as one whole number. -/
  coefficient : Nat
  /-- The power of ten that the coefficient is counted in. -/
  exponent : Int
deriving Repr, DecidableEq

namespace Decimal

/-- The double nearest to a decimal, ties going to the even neighbour. Beyond the largest
double lies infinity. -/
def toFloat (d : Decimal) : Float :=
  let x : Float := .ofModel (.ofScientific d.coefficient d.exponent)
  if d.negative then -x else x

/-- The whole number `n` as a decimal. -/
def ofInt (n : Int) : Decimal := ⟨decide (n < 0), n.natAbs, 0⟩

end Decimal

end ScaraArm
