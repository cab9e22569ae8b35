/-!
# Exact readings of doubles

A finite double is `±m · 2^e` for whole numbers `m` and `e`, and every question about
it that has a whole answer can be settled on `m` and `e` without rounding: which
integer is nearest, how many unit lengths cover it, how long a hypotenuse is before
its single rounding.
-/

namespace ScaraArm.Binary64

open Float.Model (UnpackedFloat Format)

/-- What a double stands for. -/
abbrev Parts := UnpackedFloat

/-- The sign, mantissa and exponent that a double is packed from. -/
def parts (x : Float) : Parts := x.toModel.unpack

/-- The double nearest to an integer, ties going to the even neighbour. -/
def ofInt (n : Int) : Float := .ofModel (.ofInt n)

/-- Whether the sign of a double is negative, minus zero included. -/
def isNegative (x : Float) : Bool :=
  match parts x with
  | .infinity .negative | .zero .negative | .finite .negative .. => true
  | _ => false

/-- The whole number nearest to `m · 2^e`; a half goes up. -/
def roundHalfUp (m : Nat) (e : Int) : Nat :=
  if 0 ≤ e then m <<< e.toNat
  else
    let k := (-e).toNat
    (m + 1 <<< (k - 1)) >>> k

/-- The least whole number not below `m · 2^e`. -/
def roundUp (m : Nat) (e : Int) : Nat :=
  if 0 ≤ e then m <<< e.toNat
  else
    let k := (-e).toNat
    (m + (1 <<< k - 1)) >>> k

/-- The integer nearest to a finite double, a half going away from zero. An undefined
number counts as zero and an infinity as the given bound on its side. -/
def nearestInt (low high : Int) : Parts → Int
  | .notANumber => 0
  | .infinity .negative => low
  | .infinity .positive => high
  | .zero _ => 0
  | .finite s m e _ => s.apply (roundHalfUp m e)

/-- The nearest step count, a half going away from zero, cut off at the ends of the range. -/
def toStep (x : Float) : Int32 :=
  Int32.ofIntClamp (nearestInt Int32.minValue.toInt Int32.maxValue.toInt (parts x))

/-- The least count not below a double, or `limit` if that is smaller. Whatever is not
above zero needs no count at all. -/
def ceilUpTo (x : Float) (limit : Nat) : Nat :=
  match parts x with
  | .infinity .positive => limit
  | .finite .positive m e _ => min (roundUp m e) limit
  | _ => 0

/-- The sum of the squares of two finite doubles, exactly, as a mantissa and an exponent. -/
def sumOfSquares (m₁ : Nat) (e₁ : Int) (m₂ : Nat) (e₂ : Int) : Nat × Int :=
  let e := min e₁ e₂
  let a := m₁ <<< (e₁ - e).toNat
  let b := m₂ <<< (e₂ - e).toNat
  (a * a + b * b, 2 * e)

/-- The hypotenuse, rounded once: the square root is taken of the exact sum of squares.
An infinite leg makes it infinite, even beside an undefined one. -/
def hypotParts : Parts → Parts → Parts
  | .infinity _, _ | _, .infinity _ => .infinity .positive
  | .notANumber, _ | _, .notANumber => .notANumber
  | .zero _, .zero _ => .zero .positive
  | .zero _, .finite _ m e h | .finite _ m e h, .zero _ => .finite .positive m e h
  | .finite _ m₁ e₁ _, .finite _ m₂ e₂ _ =>
    let (m, e) := sumOfSquares m₁ e₁ m₂ e₂
    if h : 0 < m then .sqrt Format.binary64 (.finite .positive m e h) else .zero .positive

/-- Length of the hypotenuse over two legs. -/
def hypot (x y : Float) : Float :=
  .ofModel (.pack (hypotParts (parts x) (parts y)))

end ScaraArm.Binary64
