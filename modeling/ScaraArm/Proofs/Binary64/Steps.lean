import Mathlib
import ScaraArm.Axis.Settings
import ScaraArm.Proofs.Binary64.Bounded
import ScaraArm.Proofs.Real.Scalar

/-!
# Doubles and step counts

A double is turned into a step count exactly: the count is the whole number nearest to the
number it stands for, cut off at the ends of the range. An infinity is cut off at its end, and
what is undefined counts as no step at all.

Rounding to a double moves a number by a small share of its size, and where the numbers are too
small for that by half of the least double. A step count is far larger than that share of
itself. So one that is divided by a scale and multiplied by it again comes back nearest to what
it was, also where the quotient has lost most of its bits: there the scale is at most the largest
double, and half of the least one times that is next to nothing.
-/

namespace ScaraArm.Binary64

/-! ## The nearest step -/

/-- Adding a half and cutting off is exact. -/
theorem roundHalfUp_eq (m : Nat) (e : Int) : (roundHalfUp m e : ℤ) = ⌊(m : ℝ) * 2 ^ e + 1 / 2⌋ := by
  symm
  unfold roundHalfUp
  by_cases he : 0 ≤ e
  · obtain ⟨k, rfl⟩ := Int.eq_ofNat_of_zero_le he
    rw [if_pos he, Nat.shiftLeft_eq, Int.toNat_natCast, zpow_natCast, Int.floor_eq_iff]
    push_cast
    constructor <;> linarith
  · obtain ⟨k, rfl⟩ : ∃ k : ℕ, e = -((k : ℤ) + 1) := ⟨(-e - 1).toNat, by omega⟩
    have hk : (-(-((k : ℤ) + 1))).toNat = k + 1 := by omega
    rw [if_neg he]
    dsimp only
    rw [hk, Nat.add_sub_cancel, Nat.one_shiftLeft, Nat.shiftRight_eq_div_pow]
    -- the sum is a quotient of whole numbers
    have hsum : (m : ℝ) * 2 ^ (-((k : ℤ) + 1)) + 1 / 2 =
        ((m + 2 ^ k : ℕ) : ℝ) / ((2 ^ (k + 1) : ℕ) : ℝ) := by
      rw [zpow_neg, zpow_add_one₀ two_ne_zero, zpow_natCast]
      push_cast
      field_simp
      ring
    rw [hsum, Int.floor_div_natCast, Int.floor_natCast]
    rfl

/-- **A finite double is turned into the whole number nearest to what it stands for.** -/
theorem nearestInt_of_real {x : Float} {r : ℝ} (hx : IsNumber x) (hr : value x = r)
    (low high : ℤ) : nearestInt low high (parts x) = nearestWhole r := by
  unfold value at hr
  cases hp : parts x with
  | notANumber => exact absurd hp hx
  | infinity s =>
    rw [hp] at hr
    exact absurd hr (number_infinity_ne_coe s r)
  | zero s =>
    rw [hp] at hr
    have hzero : r = ((0 : ℤ) : ℝ) := by
      rw [Int.cast_zero]
      exact EReal.coe_eq_zero.mp hr.symm
    rw [hzero, nearestWhole_intCast]
    rfl
  | finite s m e hm =>
    rw [hp, number_finite, EReal.coe_eq_coe_iff] at hr
    have hsize : (0 : ℝ) ≤ m * 2 ^ e := by positivity
    have hwhole : nearestWhole (m * 2 ^ e) = roundHalfUp m e := by
      rw [roundHalfUp_eq]
      exact if_pos hsize
    show s.apply (roundHalfUp m e) = nearestWhole r
    cases s with
    | positive =>
      rw [← hr, signOf, one_mul, hwhole]
      rfl
    | negative =>
      rw [← hr, signOf, neg_one_mul, nearestWhole_neg, hwhole]
      rfl

/-- **The step count of a finite double is the nearest one.** -/
theorem toStep_of_real {x : Float} {r : ℝ} (hx : IsNumber x) (hr : value x = r) :
    toStep x = Int32.ofIntClamp (nearestWhole r) := by
  unfold toStep
  rw [nearestInt_of_real hx hr]

/-- What is undefined is no step. -/
theorem toStep_of_not_isNumber {x : Float} (h : ¬ IsNumber x) : toStep x = 0 := by
  unfold toStep
  rw [not_not.mp h]
  rfl

/-- A count that is too large is cut off at its end of the range. -/
theorem toStep_of_top {x : Float} (h : value x = ⊤) : toStep x = Int32.maxValue := by
  rw [toStep, parts_of_infinity (s := .positive) h]
  rfl

theorem toStep_of_bot {x : Float} (h : value x = ⊥) : toStep x = Int32.minValue := by
  rw [toStep, parts_of_infinity (s := .negative) h]
  rfl

/-! ## How far rounding goes -/

/-- Rounding moves a number by a small share of its size, or by half of the least double. -/
theorem abs_snap_sub_le (r : ℝ) : |snap r - r| ≤ |r| * 2 ^ (-53 : ℤ) + 2 ^ (-1075 : ℤ) := by
  rcases eq_or_ne r 0 with rfl | h0
  · rw [snap_zero, sub_zero, abs_zero, zero_mul, zero_add]
    positivity
  have hpow : (0 : ℝ) < 2 ^ grid r := by positivity
  have hhalf : |snap r - r| ≤ 1 / 2 * 2 ^ grid r := by
    have hmove : snap r - r = (halfEven (r / 2 ^ grid r) - r / 2 ^ grid r) * 2 ^ grid r := by
      rw [snap_eq, sub_mul, div_mul_cancel₀ _ hpow.ne']
    rw [hmove, abs_mul, abs_of_pos hpow, abs_sub_comm]
    exact mul_le_mul_of_nonneg_right (abs_sub_halfEven_le _) hpow.le
  have hgrid : (2 : ℝ) ^ grid r ≤ |r| * 2 ^ (-52 : ℤ) + 2 ^ (-1074 : ℤ) := by
    have hlog : (2 : ℝ) ^ Int.log 2 |r| ≤ |r| := by
      exact_mod_cast Int.zpow_log_le_self one_lt_two (abs_pos.mpr h0)
    unfold grid
    rcases le_total (Int.log 2 |r| - 52) (-1074) with hsmall | hlarge
    · rw [max_eq_right hsmall]
      exact le_add_of_nonneg_left (by positivity)
    · rw [max_eq_left hlarge, sub_eq_add_neg, zpow_add₀ two_ne_zero]
      exact le_add_of_le_of_nonneg (mul_le_mul_of_nonneg_right hlog (by positivity)) (by positivity)
  calc |snap r - r| ≤ 1 / 2 * 2 ^ grid r := hhalf
    _ ≤ 1 / 2 * (|r| * 2 ^ (-52 : ℤ) + 2 ^ (-1074 : ℤ)) := by gcongr
    _ = |r| * 2 ^ (-53 : ℤ) + 2 ^ (-1075 : ℤ) := by
      rw [show (-52 : ℤ) = -53 + 1 from rfl, show (-1074 : ℤ) = -1075 + 1 from rfl,
        zpow_add_one₀ two_ne_zero, zpow_add_one₀ two_ne_zero]
      ring

/-! ## There and back -/

/-- A number of the size of a step count stays within a half of itself when it is divided by a
double and multiplied by it again, each result being rounded. -/
theorem abs_snap_mul_snap_div_sub_lt {n a : ℝ} (hn : |n| ≤ 2 ^ 31) (ha : 0 < a)
    (hlt : a < 2 ^ 1024) : |snap (snap (n / a) * a) - n| < 1 / 2 := by
  -- the least double is lost against the largest
  have hleast : a * 2 ^ (-1075 : ℤ) ≤ 2 ^ (-51 : ℤ) := by
    calc a * 2 ^ (-1075 : ℤ) ≤ 2 ^ (1024 : ℤ) * 2 ^ (-1075 : ℤ) := by
          gcongr
          exact_mod_cast hlt.le
      _ = 2 ^ (-51 : ℤ) := by rw [← zpow_add₀ two_ne_zero]; rfl
  have hquotient : |snap (n / a) * a - n| ≤ 2 ^ (-21 : ℤ) := by
    have hscaled : snap (n / a) * a - n = (snap (n / a) - n / a) * a := by
      rw [sub_mul, div_mul_cancel₀ _ ha.ne']
    have hsize : |n / a| * a = |n| := by
      rw [abs_div, abs_of_pos ha, div_mul_cancel₀ _ ha.ne']
    rw [hscaled, abs_mul, abs_of_pos ha]
    calc |snap (n / a) - n / a| * a
        ≤ (|n / a| * 2 ^ (-53 : ℤ) + 2 ^ (-1075 : ℤ)) * a := by
          gcongr
          exact abs_snap_sub_le (n / a)
      _ = |n| * 2 ^ (-53 : ℤ) + a * 2 ^ (-1075 : ℤ) := by
          rw [← hsize]
          ring
      _ ≤ 2 ^ 31 * 2 ^ (-53 : ℤ) + 2 ^ (-51 : ℤ) := by gcongr
      _ ≤ 2 ^ (-21 : ℤ) := by norm_num
  have hproduct : |snap (n / a) * a| ≤ 2 ^ 32 := by
    calc |snap (n / a) * a| = |(snap (n / a) * a - n) + n| := by rw [sub_add_cancel]
      _ ≤ |snap (n / a) * a - n| + |n| := abs_add_le _ _
      _ ≤ 2 ^ (-21 : ℤ) + 2 ^ 31 := add_le_add hquotient hn
      _ ≤ 2 ^ 32 := by norm_num
  have hround : |snap (snap (n / a) * a) - snap (n / a) * a| ≤ 2 ^ (-20 : ℤ) := by
    calc _ ≤ |snap (n / a) * a| * 2 ^ (-53 : ℤ) + 2 ^ (-1075 : ℤ) := abs_snap_sub_le _
      _ ≤ 2 ^ 32 * 2 ^ (-53 : ℤ) + 2 ^ (-51 : ℤ) := by
          gcongr
          · norm_num
          · norm_num
      _ ≤ 2 ^ (-20 : ℤ) := by norm_num
  calc |snap (snap (n / a) * a) - n|
      ≤ |snap (snap (n / a) * a) - snap (n / a) * a| + |snap (n / a) * a - n| :=
        abs_sub_le _ _ _
    _ ≤ 2 ^ (-20 : ℤ) + 2 ^ (-21 : ℤ) := add_le_add hround hquotient
    _ < 1 / 2 := by norm_num

/-- **A step count comes back from its quotient by a scale**, if that is finite. -/
theorem toStep_div_mul {x : Float} {a : ℝ} (hx : Measures x a) (s : Int32)
    (hfin : (ofInt s.toInt / x).isFinite = true) : toStep (ofInt s.toInt / x * x) = s := by
  have hlow := s.le_toInt
  have hhigh := s.toInt_lt
  have hrange : |s.toInt| ≤ 2 ^ 31 := abs_le.mpr ⟨by omega, by omega⟩
  have hcount : value (ofInt s.toInt) = (s.toInt : ℝ) := value_ofInt (by omega)
  have hquotient : value (ofInt s.toInt / x) = snap (s.toInt / a) := by
    have hnearest : value (ofInt s.toInt / x) = nearest ((s.toInt / a : ℝ)) := by
      rw [value_div (isFinite_of_value (isNumber_ofInt _) hcount) hx.isFinite
          hx.value_ne_zero, hcount,
        hx.value_eq, EReal.coe_div]
    obtain ⟨r, hr, -⟩ := exists_real hfin
    rw [hr, snap_of_nearest (hnearest.symm.trans hr)]
  have hnear := abs_snap_mul_snap_div_sub_lt (n := s.toInt) (by exact_mod_cast hrange) hx.pos hx.lt
  have hsmall : |snap (snap (s.toInt / a) * a)| < 2 ^ 1024 := by
    have hn : |(s.toInt : ℝ)| ≤ 2 ^ 31 := by exact_mod_cast hrange
    calc |snap (snap (s.toInt / a) * a)|
        = |(snap (snap (s.toInt / a) * a) - s.toInt) + s.toInt| := by rw [sub_add_cancel]
      _ ≤ |snap (snap (s.toInt / a) * a) - s.toInt| + |(s.toInt : ℝ)| := abs_add_le _ _
      _ ≤ 1 / 2 + 2 ^ 31 := add_le_add hnear.le hn
      _ < 2 ^ 53 := by norm_num
      _ < 2 ^ 1024 := pow_lt_pow_right₀ one_lt_two (by omega)
  obtain ⟨hnumber, hback⟩ := hx.mul (isNumber_of_isFinite hfin)
  rw [hquotient, ← EReal.coe_mul, nearest_of_abs_lt hsmall] at hback
  rw [toStep_of_real hnumber hback, nearestWhole_of_abs_lt hnear, Int32.ofIntClamp_toInt]

end ScaraArm.Binary64

namespace ScaraArm.AxisTable

variable {k : Nat}

/-! ## Records -/

/-- **A step record comes back from the joints it stands for**, whatever the scales, if the
joints are finite. -/
theorem stepsOfJoints_jointsOfSteps (axes : AxisTable Float k) (steps : StepRecord k)
    (hscale : ∀ axis ∈ axes.toList, Scalar.isPositive axis.stepsPerUnit = true)
    (hfin : ∀ units ∈ (axes.jointsOfSteps steps).toList, units.isFinite = true) :
    axes.stepsOfJoints (axes.jointsOfSteps steps) = steps := by
  refine PerAxis.zipWith_zipWith_cancel fun axis haxis count hunits => ?_
  obtain ⟨a, ha⟩ := Binary64.exists_measures .native (hscale axis haxis)
  exact Binary64.toStep_div_mul ha count (hfin _ hunits)

/-- Both ends of the range, and a step that is less than the least normal double. -/
theorem stepsOfJoints_jointsOfSteps_at_the_ends :
    let axes : AxisTable Float 1 :=
      ⟨⟨.ofBits 0x7FEFFFFFFFFFFFFF, .ofBits 0⟩, ⟨.ofBits 0x01F0000000000000, .ofBits 0⟩,
        #v[⟨.ofBits 0x4054000000000000, .ofBits 0⟩]⟩
    let steps : StepRecord 1 := ⟨1, Int32.minValue, #v[Int32.maxValue]⟩
    axes.stepsOfJoints (axes.jointsOfSteps steps) = steps :=
  stepsOfJoints_jointsOfSteps _ _ (by decide +kernel) (by decide +kernel)

end ScaraArm.AxisTable
