import Mathlib.Analysis.SpecialFunctions.Complex.Arg
import Mathlib.Analysis.SpecialFunctions.Trigonometric.Inverse
import ScaraArm.Kinematics

/-!
# The arm over the real numbers

What the arm does up to rounding is what it does over the real numbers, where the functions
of the circle are the functions themselves. The bearing of a point is the argument of a
complex number, so the bearing of the base is zero. Steps are still rounded: a count of
steps is a whole number in any arithmetic.
-/

namespace ScaraArm

open Real

/-- The nearest whole number, a half going away from zero. -/
noncomputable def nearestWhole (x : ℝ) : ℤ := if 0 ≤ x then ⌊x + 1 / 2⌋ else ⌈x - 1 / 2⌉

/-- The nearest whole number is at most a half away. -/
theorem abs_nearestWhole_sub_le (x : ℝ) : |(nearestWhole x : ℝ) - x| ≤ 1 / 2 := by
  unfold nearestWhole
  rw [abs_le]
  split
  · have hlow := Int.lt_floor_add_one (x + 1 / 2)
    have hhigh := Int.floor_le (x + 1 / 2)
    constructor <;> linarith
  · have hlow := Int.le_ceil (x - 1 / 2)
    have hhigh := Int.ceil_lt_add_one (x - 1 / 2)
    constructor <;> linarith

/-- A whole number less than a half away is the nearest. -/
theorem nearestWhole_of_abs_lt {x : ℝ} {n : ℤ} (h : |x - n| < 1 / 2) : nearestWhole x = n := by
  obtain ⟨hlow, hhigh⟩ := abs_le.mp (abs_nearestWhole_sub_le x)
  obtain ⟨hlow', hhigh'⟩ := abs_lt.mp h
  have hlow : ((n - 1 : ℤ) : ℝ) < nearestWhole x := by
    push_cast
    linarith
  have hhigh : (nearestWhole x : ℝ) < ((n + 1 : ℤ) : ℝ) := by
    push_cast
    linarith
  have hlow := Int.cast_lt.mp hlow
  have hhigh := Int.cast_lt.mp hhigh
  omega

/-- A whole number is the nearest to itself. -/
theorem nearestWhole_intCast (n : ℤ) : nearestWhole n = n :=
  nearestWhole_of_abs_lt (by rw [sub_self, abs_zero]; norm_num)

/-- Halves go away from zero on either side. -/
theorem nearestWhole_neg (x : ℝ) : nearestWhole (-x) = -nearestWhole x := by
  unfold nearestWhole
  rcases lt_trichotomy x 0 with h | rfl | h
  · rw [if_pos (by linarith), if_neg (not_le.mpr h), ← Int.floor_neg]
    congr 1
    ring
  · norm_num
  · rw [if_neg (by linarith), if_pos h.le, ← Int.ceil_neg]
    congr 1
    ring

noncomputable instance : Scalar ℝ where
  ofInt n := n
  le x y := decide (x ≤ y)
  lt x y := decide (x < y)
  isFinite _ := true
  hypot x y := √(x * x + y * y)
  sin := Real.sin
  cos := Real.cos
  acos := Real.arccos
  atan2 y x := Complex.arg ⟨x, y⟩
  radiansPerDegree := π / (180 : ℕ)
  degreesPerRadian := (180 : ℕ) / π
  toStep x := Int32.ofIntClamp (nearestWhole x)
  ceilUpTo x limit := min ⌈x⌉₊ limit

namespace Scalar

theorem isPositive_iff {x : ℝ} : isPositive x = true ↔ 0 < x := by
  have hzero : (zero : ℝ) = 0 := Int.cast_zero
  show (true && decide (zero < x)) = true ↔ 0 < x
  rw [hzero, Bool.true_and, decide_eq_true_eq]

/-- Pulling back into the range of a cosine, by the lattice operations. -/
theorem clampUnit_eq (x : ℝ) : clampUnit x = max (-1) (min x 1) := by
  have hone : (ofInt 1 : ℝ) = 1 := Int.cast_one
  have hneg : (ofInt (-1) : ℝ) = -1 := by
    show ((-1 : ℤ) : ℝ) = -1
    norm_num
  unfold clampUnit
  rw [hone, hneg]
  show (if decide (x < -1) = true then (-1 : ℝ) else if decide (1 < x) = true then 1 else x) = _
  simp only [decide_eq_true_eq]
  by_cases hlow : x < -1
  · rw [if_pos hlow, min_eq_left (by linarith), max_eq_left hlow.le]
  · rw [if_neg hlow]
    by_cases hhigh : 1 < x
    · rw [if_pos hhigh, min_eq_right hhigh.le, max_eq_right (by norm_num)]
    · rw [if_neg hhigh, min_eq_left (not_lt.mp hhigh), max_eq_right (not_lt.mp hlow)]

theorem toRadians_eq (x : ℝ) : toRadians x = x * (π / 180) := rfl

theorem toDegrees_eq (x : ℝ) : toDegrees x = x * (180 / π) := rfl

@[simp] theorem toRadians_toDegrees (x : ℝ) : toRadians (toDegrees x) = x := by
  rw [toRadians_eq, toDegrees_eq]
  field_simp

@[simp] theorem toDegrees_toRadians (x : ℝ) : toDegrees (toRadians x) = x := by
  rw [toRadians_eq, toDegrees_eq]
  field_simp

theorem toRadians_add (x y : ℝ) : toRadians (x + y) = toRadians x + toRadians y := by
  simp only [toRadians_eq]
  ring

theorem toRadians_sub (x y : ℝ) : toRadians (x - y) = toRadians x - toRadians y := by
  simp only [toRadians_eq]
  ring

theorem toRadians_neg (x : ℝ) : toRadians (-x) = -toRadians x := by
  simp only [toRadians_eq]
  ring

/-- Half a turn is half a turn, in either measure. -/
theorem toRadians_mem {x : ℝ} (h : x ∈ Set.Icc 0 180) : toRadians x ∈ Set.Icc 0 π := by
  obtain ⟨hlow, hhigh⟩ := h
  have hpi := pi_pos
  rw [toRadians_eq]
  constructor
  · positivity
  · nlinarith

theorem toDegrees_sub (x y : ℝ) : toDegrees (x - y) = toDegrees x - toDegrees y := by
  simp only [toDegrees_eq]
  ring

/-- A turn is a turn, in either measure. -/
theorem toDegrees_add_turns (x : ℝ) (n : ℤ) : toDegrees (x + n * (2 * π)) = toDegrees x + 360 * n := by
  simp only [toDegrees_eq]
  field_simp
  ring

theorem toRadians_add_turns (x : ℝ) (n : ℤ) : toRadians (x + 360 * n) = toRadians x + n * (2 * π) := by
  simp only [toRadians_eq]
  ring

end Scalar

namespace Geometry

variable (g : Geometry ℝ)

theorem lower_pos' : 0 < g.lower := Scalar.isPositive_iff.mp g.lower_pos

theorem upper_pos' : 0 < g.upper := Scalar.isPositive_iff.mp g.upper_pos

theorem reaches_iff {g : Geometry ℝ} {p : Planar ℝ} :
    g.reaches p = true ↔ p.x * p.x + p.y * p.y ≤ (g.lower + g.upper) * (g.lower + g.upper) :=
  decide_eq_true_iff

end Geometry

end ScaraArm
