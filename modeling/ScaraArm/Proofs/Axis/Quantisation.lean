import Mathlib
import ScaraArm.Proofs.Binary64.Quotient
import ScaraArm.Proofs.Binary64.Steps
import ScaraArm.Proofs.Real.Homing

/-!
# Units and the nearest step counts

The step count of a number of units is made in three steps: the units are multiplied by the scale,
the product is rounded to a whole number, and the whole number is cut off at the ends of the range.
Each of them keeps the order and turns opposite numbers into opposite ones, so the whole does, for
all doubles but the undefined one. Only the range itself is lopsided: its lower end is one step
farther from zero than its upper end.

Read with an exact product the count is the whole number nearest to it. The product of doubles is
rounded, and that can change the count, though not by much: halves are doubles themselves, so
rounding does not carry a product across a half, but it can put it on one. There the count goes away
from zero, which may be one step too far (`not_keepsHalves_of_a_sixth`). At every other product the
count is that of the exact one.
-/

namespace ScaraArm

/-! ## The nearest whole number -/

/-- No whole number is nearer to a number, and none that is equally near is farther from zero. -/
structure NearestAway (r : ℝ) (n : ℤ) : Prop where
  nearest : ∀ m : ℤ, |n - r| ≤ |m - r|
  away : ∀ m : ℤ, |m - r| = |n - r| → |m| ≤ |n|

section

variable {r s : ℝ} {m n : ℤ}

theorem NearestAway.neg (h : NearestAway r n) : NearestAway (-r) (-n) := by
  have hflip : ∀ k : ℤ, |(k : ℝ) - -r| = |((-k : ℤ) : ℝ) - r| := by
    intro k
    rw [← abs_neg]
    push_cast
    ring_nf
  constructor
  · intro k
    rw [hflip, hflip, neg_neg]
    exact h.nearest (-k)
  · intro k hk
    rw [hflip, hflip, neg_neg] at hk
    rw [abs_neg, ← abs_neg k]
    exact h.away (-k) hk

/-- Whole numbers nearest to two numbers are in the order of these, whatever is done with ties. -/
theorem NearestAway.le (hn : NearestAway r n) (hm : NearestAway s m) (h : r < s) : n ≤ m := by
  by_contra hlt
  have hlt : (m : ℝ) < n := Int.cast_lt.mpr (not_le.mp hlt)
  -- the middle between the two is not above `r` and not below `s`
  have hr := sq_le_sq.mpr (hn.nearest m)
  have hs := sq_le_sq.mpr (hm.nearest n)
  nlinarith

theorem NearestAway.unique (hn : NearestAway r n) (hm : NearestAway r m) : n = m := by
  have hnear : |(n : ℝ) - r| = |(m : ℝ) - r| := le_antisymm (hn.nearest m) (hm.nearest n)
  have hfar : |n| = |m| := le_antisymm (hm.away n hnear) (hn.away m hnear.symm)
  rcases abs_eq_abs.mp hfar with heq | hneg
  · exact heq
  -- two opposite numbers are equally near to zero only
  have hcast : (n : ℝ) = -m := by exact_mod_cast hneg
  rcases abs_eq_abs.mp hnear with hsub | hsub
  · exact_mod_cast (by linarith : (n : ℝ) = m)
  · have hr : r = 0 := by linarith
    have hzero := hn.nearest 0
    rw [hr, Int.cast_zero, sub_zero, sub_zero, abs_zero] at hzero
    have hn0 : n = 0 := by exact_mod_cast abs_nonpos_iff.mp hzero
    omega

/-- From zero upwards the nearest whole number of two is the upper one. -/
theorem lt_nearestWhole_add (h : 0 ≤ r) : r < nearestWhole r + 1 / 2 := by
  have hfloor := Int.lt_floor_add_one (r + 1 / 2)
  rw [nearestWhole, if_pos h]
  linarith

/-- Every other whole number is half a step away at least. -/
theorem half_le_abs_sub (h : m ≠ nearestWhole r) : 1 / 2 ≤ |(m : ℝ) - r| := by
  have hone : (1 : ℝ) ≤ |(m : ℝ) - nearestWhole r| := by
    exact_mod_cast Int.one_le_abs (sub_ne_zero.mpr h)
  have hnear := abs_nearestWhole_sub_le r
  have htriangle := abs_sub_le (m : ℝ) r (nearestWhole r)
  rw [abs_sub_comm r] at htriangle
  linarith

theorem nearestAway_of_nonneg (h : 0 ≤ r) : NearestAway r (nearestWhole r) := by
  have hnear := abs_nearestWhole_sub_le r
  have hup := lt_nearestWhole_add h
  constructor
  · intro m
    by_cases hm : m = nearestWhole r
    · rw [hm]
    · exact hnear.trans (half_le_abs_sub hm)
  · intro m htie
    by_cases hm : m = nearestWhole r
    · rw [hm]
    · -- the two are a half away on either side, and `nearestWhole r` is the upper one
      have hhalf : |(nearestWhole r : ℝ) - r| = 1 / 2 :=
        le_antisymm hnear (htie ▸ half_le_abs_sub hm)
      have habove : (nearestWhole r : ℝ) - r = 1 / 2 := by
        rcases (abs_eq (by norm_num)).mp hhalf with h' | h'
        · exact h'
        · linarith
      have hbelow : (m : ℝ) - r = -(1 / 2) := by
        rcases (abs_eq (by norm_num)).mp (htie.trans hhalf) with h' | h'
        · exact absurd (by exact_mod_cast (by linarith : (m : ℝ) = nearestWhole r)) hm
        · exact h'
      have hnext : nearestWhole r = m + 1 := by
        exact_mod_cast (by linarith : (nearestWhole r : ℝ) = m + 1)
      have hpos : 0 < nearestWhole r := by
        exact_mod_cast (by linarith : (0 : ℝ) < nearestWhole r)
      rw [abs_of_pos hpos, abs_of_nonneg (by omega)]
      omega

/-- **Rounding gives the nearest whole number, and of two the one away from zero.** -/
theorem nearestAway_iff : NearestAway r n ↔ n = nearestWhole r := by
  have hround : NearestAway r (nearestWhole r) := by
    rcases le_total 0 r with h | h
    · exact nearestAway_of_nonneg h
    · have hneg := (nearestAway_of_nonneg (neg_nonneg.mpr h)).neg
      rwa [nearestWhole_neg, neg_neg, neg_neg] at hneg
  exact ⟨fun h => h.unique hround, fun h => h ▸ hround⟩

/-- **Rounding to a whole number never reorders two numbers.** -/
theorem nearestWhole_mono : Monotone nearestWhole := by
  intro r s h
  rcases h.eq_or_lt with rfl | hlt
  · exact le_rfl
  · exact (nearestAway_iff.mpr rfl).le (nearestAway_iff.mpr rfl) hlt

end

/-! ## Counts that are cut off -/

/-- Cutting off is pulling back into the range. -/
theorem toInt_ofIntClamp_eq (n : ℤ) :
    (Int32.ofIntClamp n).toInt = max (-2 ^ 31) (min n (2 ^ 31 - 1)) := by
  have hlow := Int32.toInt_minValue
  have hhigh := Int32.toInt_maxValue
  by_cases hbelow : n < -2 ^ 31
  · rw [Int32.ofIntClamp, dif_neg (by omega), hlow]
    omega
  by_cases habove : 2 ^ 31 - 1 < n
  · rw [Int32.ofIntClamp, dif_pos (by omega), dif_neg (by omega), hhigh]
    omega
  · rw [Int32.toInt_ofIntClamp (by omega) (by omega)]
    omega

namespace Binary64

open Int32 in
/-- The step count of an extended number: the nearest whole number, cut off at the ends of the
range. -/
noncomputable def countOf : EReal → Int32
  | ⊥ => minValue
  | ⊤ => maxValue
  | (r : ℝ) => ofIntClamp (nearestWhole r)

theorem countOf_coe (r : ℝ) : countOf r = Int32.ofIntClamp (nearestWhole r) := rfl

/-- **The step count of a double is that of the number it stands for.** -/
theorem toStep_eq {x : Float} (hx : IsNumber x) : toStep x = countOf (value x) := by
  induction hv : value x with
  | bot => exact toStep_of_bot hv
  | top => exact toStep_of_top hv
  | coe r => exact toStep_of_real hx hv

/-- **Counting steps never reorders two numbers.** -/
theorem countOf_mono {a b : EReal} (h : a ≤ b) : countOf a ≤ countOf b := by
  induction a with
  | bot => exact Int32.minValue_le _
  | top =>
    rw [top_le_iff.mp h]
    exact Int32.le_refl _
  | coe r =>
    induction b with
    | bot => exact absurd h (EReal.bot_lt_coe r).not_ge
    | top => exact Int32.le_maxValue _
    | coe s =>
      have hwhole := nearestWhole_mono (EReal.coe_le_coe_iff.mp h)
      rw [Int32.le_iff_toInt_le, countOf_coe, countOf_coe, toInt_ofIntClamp_eq,
        toInt_ofIntClamp_eq]
      omega

/-- The nearest whole number is in the range of step counts, so that nothing is cut off. -/
def InRange (a : EReal) : Prop :=
  ∃ r : ℝ, a = r ∧ nearestWhole r ∈ Set.Icc (-2 ^ 31) (2 ^ 31 - 1)

/-- **Opposite numbers have opposite counts**, if neither is cut off. -/
theorem toInt_countOf_neg {a : EReal} (h : InRange a) (hneg : InRange (-a)) :
    (countOf (-a)).toInt = -(countOf a).toInt := by
  obtain ⟨r, rfl, hlow, hhigh⟩ := h
  obtain ⟨s, hs, hlow', hhigh'⟩ := hneg
  obtain rfl : -r = s := EReal.coe_eq_coe_iff.mp hs
  rw [nearestWhole_neg] at hlow' hhigh'
  rw [← EReal.coe_neg, countOf_coe, countOf_coe, nearestWhole_neg, toInt_ofIntClamp_eq,
    toInt_ofIntClamp_eq]
  omega

/-! ## What rounding a product does to its count -/

/-- A half of moderate size is a double. -/
theorem nearest_half {n : ℤ} (h : |n| < 2 ^ 51) : nearest ((n + 1 / 2 : ℝ)) = (n + 1 / 2 : ℝ) := by
  have hn : |(n : ℝ)| < 2 ^ 51 := by exact_mod_cast h
  have hdyadic : Dyadic (n + 1 / 2 : ℝ) := by
    refine dyadic_iff.mpr ⟨2 * n + 1, -1, ?_, by norm_num, ?_⟩
    · obtain ⟨hlow, hhigh⟩ := abs_lt.mp h
      exact abs_lt.mpr ⟨by omega, by omega⟩
    · push_cast
      ring
  refine nearest_of_dyadic hdyadic ?_
  calc |(n + 1 / 2 : ℝ)| ≤ |(n : ℝ)| + |(1 / 2 : ℝ)| := abs_add_le _ _
    _ ≤ 2 ^ 51 + 1 := by
        refine add_le_add hn.le ?_
        rw [abs_of_pos] <;> norm_num
    _ < 2 ^ 52 := by norm_num
    _ < 2 ^ 1024 := pow_lt_pow_right₀ one_lt_two (by omega)

/-- What is half a step from the upper end, or above that, is counted as the end. -/
theorem countOf_of_le {a : EReal} (h : (((2 ^ 31 - 1 : ℤ) + 1 / 2 : ℝ) : EReal) ≤ a) :
    countOf a = Int32.maxValue := by
  have hwhole : nearestWhole ((2 ^ 31 - 1 : ℤ) + 1 / 2 : ℝ) = 2 ^ 31 := by
    rw [nearestWhole, if_pos (by norm_num)]
    norm_num
  have hend : countOf (((2 ^ 31 - 1 : ℤ) + 1 / 2 : ℝ) : EReal) = Int32.maxValue := by
    rw [countOf_coe, hwhole]
    rfl
  exact Int32.le_antisymm (Int32.le_maxValue _) (hend ▸ countOf_mono h)

theorem countOf_of_ge {a : EReal} (h : a ≤ (((-2 ^ 31 - 1 : ℤ) + 1 / 2 : ℝ) : EReal)) :
    countOf a = Int32.minValue := by
  have hwhole : nearestWhole ((-2 ^ 31 - 1 : ℤ) + 1 / 2 : ℝ) = -2 ^ 31 - 1 := by
    rw [nearestWhole, if_neg (by norm_num)]
    norm_num
  have hend : countOf (((-2 ^ 31 - 1 : ℤ) + 1 / 2 : ℝ) : EReal) = Int32.minValue := by
    rw [countOf_coe, hwhole]
    rfl
  exact Int32.le_antisymm (hend ▸ countOf_mono h) (Int32.minValue_le _)

/-- **Rounding does not carry a number across a half**, because the halves on either side of its
count are doubles. -/
theorem exists_nearest {r : ℝ} (h : |nearestWhole r| ≤ 2 ^ 31 + 1) :
    ∃ s : ℝ, nearest r = s ∧ |s - nearestWhole r| ≤ 1 / 2 := by
  obtain ⟨hlow, hhigh⟩ := abs_le.mp (abs_nearestWhole_sub_le r)
  obtain ⟨hsmall, hsmall'⟩ := abs_le.mp h
  have hup : nearest r ≤ ((nearestWhole r + 1 / 2 : ℝ)) := by
    rw [← nearest_half (abs_lt.mpr ⟨by omega, by omega⟩)]
    exact nearest_mono (EReal.coe_le_coe_iff.mpr (by linarith))
  have hdown : (((nearestWhole r - 1 : ℤ) + 1 / 2 : ℝ) : EReal) ≤ nearest r := by
    rw [← nearest_half (abs_lt.mpr ⟨by omega, by omega⟩)]
    exact nearest_mono (EReal.coe_le_coe_iff.mpr (by push_cast; linarith))
  generalize nearest r = a at hup hdown ⊢
  lift a to ℝ using ⟨(hup.trans_lt (EReal.coe_lt_top _)).ne,
    ((EReal.bot_lt_coe _).trans_le hdown).ne'⟩ with s
  have hup := EReal.coe_le_coe_iff.mp hup
  have hdown := EReal.coe_le_coe_iff.mp hdown
  push_cast at hdown
  exact ⟨s, rfl, abs_le.mpr ⟨by linarith, by linarith⟩⟩

/-- Rounding a number keeps its count, or it makes a half of it that is next to the count. -/
theorem countOf_nearest_cases (r : ℝ) :
    countOf (nearest r) = countOf r
      ∨ ∃ s : ℝ, nearest r = s ∧ |s - nearestWhole r| = 1 / 2 := by
  -- beyond the ends of the range the counts are cut off alike
  by_cases habove : ((2 ^ 31 - 1 : ℤ) + 1 / 2 : ℝ) ≤ r
  · have hexact := EReal.coe_le_coe_iff.mpr habove
    have hround := nearest_mono hexact
    rw [nearest_half (by norm_num)] at hround
    exact Or.inl ((countOf_of_le hround).trans (countOf_of_le hexact).symm)
  by_cases hbelow : r ≤ ((-2 ^ 31 - 1 : ℤ) + 1 / 2 : ℝ)
  · have hexact := EReal.coe_le_coe_iff.mpr hbelow
    have hround := nearest_mono hexact
    rw [nearest_half (by norm_num)] at hround
    exact Or.inl ((countOf_of_ge hround).trans (countOf_of_ge hexact).symm)
  have hsmall : |nearestWhole r| ≤ 2 ^ 31 + 1 := by
    obtain ⟨hlow, hhigh⟩ := abs_le.mp (abs_nearestWhole_sub_le r)
    push_cast at habove hbelow
    refine abs_le.mpr ⟨?_, ?_⟩
    · exact_mod_cast (by linarith : (-(2 ^ 31 + 1) : ℝ) ≤ nearestWhole r)
    · exact_mod_cast (by linarith : (nearestWhole r : ℝ) ≤ 2 ^ 31 + 1)
  obtain ⟨s, hs, hhalf⟩ := exists_nearest hsmall
  rcases hhalf.lt_or_eq with hlt | heq
  · exact Or.inl (by rw [hs, countOf_coe, countOf_coe, nearestWhole_of_abs_lt hlt])
  · exact Or.inr ⟨s, hs, heq⟩

/-- Rounding a number changes its count by one step at most. -/
theorem abs_countOf_nearest_sub_le (r : ℝ) :
    |(countOf (nearest r)).toInt - (countOf r).toInt| ≤ 1 := by
  rcases countOf_nearest_cases r with heq | ⟨s, hs, hhalf⟩
  · rw [heq, sub_self, abs_zero]
    exact zero_le_one
  · have hone : |nearestWhole s - nearestWhole r| ≤ 1 := by
      have hreal : |(nearestWhole s : ℝ) - nearestWhole r| ≤ 1 := by
        calc |(nearestWhole s : ℝ) - nearestWhole r|
            ≤ |(nearestWhole s : ℝ) - s| + |s - nearestWhole r| := abs_sub_le _ _ _
          _ ≤ 1 / 2 + 1 / 2 := add_le_add (abs_nearestWhole_sub_le s) hhalf.le
          _ = 1 := by norm_num
      exact_mod_cast hreal
    rw [hs, countOf_coe, countOf_coe, toInt_ofIntClamp_eq, toInt_ofIntClamp_eq]
    obtain ⟨hlow, hhigh⟩ := abs_le.mp hone
    exact abs_le.mpr ⟨by omega, by omega⟩

/-- The real number that a finite double stands for. -/
noncomputable def real (x : Float) : ℝ := (value x).toReal

theorem value_eq_real {x : Float} (h : x.isFinite = true) : value x = real x := by
  obtain ⟨r, hr, -⟩ := exists_real h
  rw [real, hr, EReal.toReal_coe]

theorem real_ofInt {n : ℤ} (h : |n| < 2 ^ 53) : real (ofInt n) = n := by
  rw [real, value_ofInt h, EReal.toReal_coe]

theorem Measures.real_eq {x : Float} {a : ℝ} (h : Measures x a) : real x = a := by
  rw [real, h.value_eq, EReal.toReal_coe]

end Binary64

/-! ## Counts of units -/

namespace AxisSettings

open Binary64

/-- The settings of an axis, read as the real numbers they stand for. -/
noncomputable def exact (axis : AxisSettings Float) : AxisSettings ℝ :=
  ⟨real axis.stepsPerUnit, real axis.maxTravel⟩

/-- Rounding does not make a half of the product: if it is halfway between two whole numbers, the
exact one is. -/
def KeepsHalves (axis : AxisSettings Float) (x : Float) : Prop :=
  ∀ n : ℤ, value (x * axis.stepsPerUnit) = (n + 1 / (2 : ℕ) : ℝ) →
    real x * real axis.stepsPerUnit = n + 1 / (2 : ℕ)

section

variable {axis : AxisSettings Float} {a : ℝ} {x : Float}

theorem stepsOfUnits_eq (ha : Measures axis.stepsPerUnit a) (hx : IsNumber x) :
    axis.stepsOfUnits x = countOf (nearest (value x * a)) := by
  obtain ⟨hnumber, hvalue⟩ := ha.mul hx
  rw [← hvalue]
  exact toStep_eq hnumber

theorem stepsOfUnits_of_isNaN (h : x.isNaN = true) : axis.stepsOfUnits x = 0 :=
  toStep_of_not_isNumber fun hnumber => isNaN_iff.mp h (isNumber_of_mul hnumber).1

theorem exact_stepsOfUnits (u : ℝ) :
    axis.exact.stepsOfUnits u = countOf ((u * axis.exact.stepsPerUnit : ℝ)) := rfl

theorem stepsOfUnits_mono (ha : Measures axis.stepsPerUnit a) {y : Float} (h : x ≤ y) :
    axis.stepsOfUnits x ≤ axis.stepsOfUnits y := by
  obtain ⟨hx, hy, hle⟩ := le_iff.mp h
  rw [stepsOfUnits_eq ha hx, stepsOfUnits_eq ha hy]
  exact countOf_mono (nearest_mono
    (mul_le_mul_of_nonneg_right hle (EReal.coe_nonneg.mpr ha.pos.le)))

theorem toInt_stepsOfUnits_neg (ha : Measures axis.stepsPerUnit a)
    (h : InRange (value (x * axis.stepsPerUnit)))
    (hneg : InRange (value (-x * axis.stepsPerUnit))) :
    (axis.stepsOfUnits (-x)).toInt = -(axis.stepsOfUnits x).toInt := by
  by_cases hx : IsNumber x
  · have hx' := isNumber_neg.mpr hx
    have hproduct : nearest (value (-x) * a) = -nearest (value x * a) := by
      rw [value_neg, EReal.neg_mul, nearest_neg]
    rw [(ha.mul hx).2] at h
    rw [(ha.mul hx').2, hproduct] at hneg
    rw [stepsOfUnits_eq ha hx, stepsOfUnits_eq ha hx', hproduct]
    exact toInt_countOf_neg h hneg
  · rw [stepsOfUnits_of_isNaN (isNaN_iff.mpr hx),
      stepsOfUnits_of_isNaN (isNaN_iff.mpr (mt isNumber_neg.mp hx))]
    rfl

/-- A finite number of units is counted as its rounded product is. -/
theorem stepsOfUnits_of_isFinite (ha : Measures axis.stepsPerUnit a) (hx : x.isFinite = true) :
    axis.stepsOfUnits x = countOf (nearest ((real x * a : ℝ))) := by
  rw [stepsOfUnits_eq ha (isNumber_of_isFinite hx), value_eq_real hx, EReal.coe_mul]

/-- **Where rounding makes no half, the count is that of the exact product.** -/
theorem stepsOfUnits_of_keepsHalves (ha : Measures axis.stepsPerUnit a) (hx : x.isFinite = true)
    (h : axis.KeepsHalves x) : axis.stepsOfUnits x = axis.exact.stepsOfUnits (real x) := by
  rw [stepsOfUnits_of_isFinite ha hx, exact_stepsOfUnits, exact, ha.real_eq]
  rcases countOf_nearest_cases (real x * a) with heq | ⟨s, hs, hhalf⟩
  · exact heq
  have hproduct : value (x * axis.stepsPerUnit) = s := by
    rw [(ha.mul (isNumber_of_isFinite hx)).2, value_eq_real hx, ← EReal.coe_mul, hs]
  -- the half lies on either side of the count
  obtain ⟨n, hn⟩ : ∃ n : ℤ, s = n + 1 / (2 : ℕ) := by
    rw [Nat.cast_ofNat]
    rcases (abs_eq (by norm_num)).mp hhalf with hup | hdown
    · exact ⟨nearestWhole (real x * a), by linarith⟩
    · exact ⟨nearestWhole (real x * a) - 1, by push_cast; linarith⟩
  have hkept : real x * a = s := by
    rw [hn, ← ha.real_eq]
    exact h n (hproduct.trans (congrArg _ hn))
  rw [hs, hkept]

/-- Rounding can make a half, and then the count is another one. At three steps to the unit the
double nearest to a sixth is less than half a step, but the rounded product is a half and is
counted. -/
theorem not_keepsHalves_of_a_sixth :
    let axis : AxisSettings Float := ⟨ofInt 3, ofInt 0⟩
    ¬ axis.KeepsHalves (.ofBits 0x3FC5555555555555)
      ∧ axis.stepsOfUnits (.ofBits 0x3FC5555555555555) = 1
      ∧ axis.exact.stepsOfUnits (real (.ofBits 0x3FC5555555555555)) = 0 := by
  intro axis
  obtain ⟨a, ha⟩ := exists_measures .native (by decide +kernel : Scalar.isPositive (ofInt 3) = true)
  have hparts : parts (.ofBits 0x3FC5555555555555)
      = .finite .positive 6004799503160661 (-55) (by decide) := by rfl
  have hx : real (.ofBits 0x3FC5555555555555) = 6004799503160661 * 2 ^ (-55 : ℤ) := by
    rw [real, value, hparts, number_finite, EReal.toReal_coe, signOf, one_mul]
    norm_num
  have hthree : axis.exact.stepsPerUnit = 3 := by
    show real axis.stepsPerUnit = 3
    rw [real_ofInt (by norm_num)]
    norm_num
  have hwhole : nearestWhole (real (.ofBits 0x3FC5555555555555) * axis.exact.stepsPerUnit) = 0 := by
    refine nearestWhole_of_abs_lt ?_
    rw [hx, hthree]
    norm_num [abs_lt]
  have hrounded : axis.stepsOfUnits (.ofBits 0x3FC5555555555555) = 1 := by decide +kernel
  have hexact : axis.exact.stepsOfUnits (real (.ofBits 0x3FC5555555555555)) = 0 := by
    rw [exact_stepsOfUnits, countOf_coe, hwhole]
    rfl
  refine ⟨fun hhalves => ?_, hrounded, hexact⟩
  have heq := stepsOfUnits_of_keepsHalves ha (by decide +kernel) hhalves
  rw [hrounded, hexact] at heq
  exact absurd heq (by decide)

/-- Units that are read off a step count are rounded once. -/
theorem value_unitsOfSteps (ha : Measures axis.stepsPerUnit a) (s : Int32) :
    value (axis.unitsOfSteps s) = nearest (axis.exact.unitsOfSteps s) := by
  have hlow := s.le_toInt
  have hhigh := s.toInt_lt
  have hcount : value (ofInt s.toInt) = (s.toInt : ℝ) :=
    value_ofInt (abs_lt.mpr ⟨by omega, by omega⟩)
  have hquotient : axis.exact.unitsOfSteps s = s.toInt / a := by
    rw [← ha.real_eq]
    rfl
  rw [hquotient, EReal.coe_div, ← hcount]
  exact value_div_length (isNumber_ofInt _) ha

end

/--
**Units are turned into the nearest step count.**

Among doubles, whatever the scale, a larger number of units never has a smaller count, and the
infinities have the ends of the range. What is undefined is no step. Opposite units have opposite
counts if neither is cut off.

Read with an exact product, the count is the one whole number that is nearest to it, a half going
away from zero, if that is in range; then the units read back are at most half a step away. If it
is not in range, the count is the nearer end. Again opposite units have opposite counts if neither
is cut off.

The product of doubles is rounded, which can move the count by one step. It does not unless rounding
makes a half of the product, and then the units read back are at most half a step away as well, but
for the rounding of the bounds to doubles.
-/
theorem steps_nearest_to_units {axis : AxisSettings Float}
    (hscale : Scalar.isPositive axis.stepsPerUnit = true) :
    ((∀ x y : Float, x ≤ y → axis.stepsOfUnits x ≤ axis.stepsOfUnits y)
        ∧ (∀ x : Float, x.isNaN = true → axis.stepsOfUnits x = 0)
        ∧ (∀ x : Float, value x = ⊤ → axis.stepsOfUnits x = Int32.maxValue)
        ∧ (∀ x : Float, value x = ⊥ → axis.stepsOfUnits x = Int32.minValue)
        ∧ ∀ x : Float, InRange (value (x * axis.stepsPerUnit)) →
          InRange (value (-x * axis.stepsPerUnit)) →
            (axis.stepsOfUnits (-x)).toInt = -(axis.stepsOfUnits x).toInt)
      ∧ (∀ u : ℝ,
        (∃ n : ℤ, (∀ m : ℤ, NearestAway (u * axis.exact.stepsPerUnit) m ↔ m = n)
          ∧ (-2 ^ 31 ≤ n → n ≤ 2 ^ 31 - 1 → (axis.exact.stepsOfUnits u).toInt = n
            ∧ |axis.exact.unitsOfSteps (axis.exact.stepsOfUnits u) - u|
              ≤ 1 / (2 * axis.exact.stepsPerUnit))
          ∧ (2 ^ 31 - 1 < n → axis.exact.stepsOfUnits u = Int32.maxValue)
          ∧ (n < -2 ^ 31 → axis.exact.stepsOfUnits u = Int32.minValue))
        ∧ (axis.exact.Fits u → axis.exact.Fits (-u) →
          (axis.exact.stepsOfUnits (-u)).toInt = -(axis.exact.stepsOfUnits u).toInt))
      ∧ ∀ x : Float, x.isFinite = true →
        |(axis.stepsOfUnits x).toInt - (axis.exact.stepsOfUnits (real x)).toInt| ≤ 1
          ∧ (axis.KeepsHalves x → axis.stepsOfUnits x = axis.exact.stepsOfUnits (real x)
            ∧ (axis.exact.Fits (real x) → value (axis.unitsOfSteps (axis.stepsOfUnits x))
              ∈ Set.Icc (nearest ((real x - 1 / (2 * axis.exact.stepsPerUnit) : ℝ)))
                (nearest ((real x + 1 / (2 * axis.exact.stepsPerUnit) : ℝ))))) := by
  obtain ⟨a, ha⟩ := exists_measures .native hscale
  have hpos : 0 < axis.exact.stepsPerUnit := ha.pos.trans_eq ha.real_eq.symm
  refine ⟨⟨fun x y => stepsOfUnits_mono ha, fun x => stepsOfUnits_of_isNaN, fun x h => ?_,
    fun x h => ?_, fun x => toInt_stepsOfUnits_neg ha⟩, fun u => ⟨?_, fun h hneg => ?_⟩,
    fun x hx => ⟨?_, fun hhalves => ?_⟩⟩
  · rw [stepsOfUnits_eq ha (isNumber_of_infinity (s := .positive) h), h,
      EReal.top_mul_coe_of_pos ha.pos]
    rfl
  · rw [stepsOfUnits_eq ha (isNumber_of_infinity (s := .negative) h), h,
      EReal.bot_mul_coe_of_pos ha.pos]
    rfl
  · refine ⟨nearestWhole (u * axis.exact.stepsPerUnit), fun m => nearestAway_iff, ?_, ?_, ?_⟩
    · intro hlow hhigh
      exact ⟨toInt_stepsOfUnits ⟨hlow, hhigh⟩, abs_unitsOfSteps_sub_le hpos ⟨hlow, hhigh⟩⟩
    · intro h
      rw [← Int32.toInt_inj, exact_stepsOfUnits, countOf_coe, toInt_ofIntClamp_eq,
        Int32.toInt_maxValue]
      omega
    · intro h
      rw [← Int32.toInt_inj, exact_stepsOfUnits, countOf_coe, toInt_ofIntClamp_eq,
        Int32.toInt_minValue]
      omega
  · rw [toInt_stepsOfUnits h, toInt_stepsOfUnits hneg, neg_mul, nearestWhole_neg]
  · rw [stepsOfUnits_of_isFinite ha hx, ← ha.real_eq]
    exact abs_countOf_nearest_sub_le _
  · have hcount := stepsOfUnits_of_keepsHalves ha hx hhalves
    refine ⟨hcount, fun hfits => ?_⟩
    obtain ⟨hlow, hhigh⟩ := abs_le.mp (abs_unitsOfSteps_sub_le hpos hfits)
    rw [hcount, value_unitsOfSteps ha]
    exact ⟨nearest_mono (EReal.coe_le_coe_iff.mpr (by linarith)),
      nearest_mono (EReal.coe_le_coe_iff.mpr (by linarith))⟩

/-- At three steps to the unit one and a half units are four and a half steps, and so five. They are
read back as one and two thirds, which is half a step too far. -/
theorem steps_nearest_to_four_and_a_half :
    let axis : AxisSettings Float := ⟨ofInt 3, ofInt 0⟩
    let x : Float := ofInt 3 / ofInt 2
    Scalar.isPositive axis.stepsPerUnit = true
      ∧ (axis.stepsOfUnits x).toInt = 5
      ∧ |axis.exact.unitsOfSteps (axis.stepsOfUnits x) - 3 / 2| ≤ 1 / (2 * 3)
      ∧ (axis.stepsOfUnits (-x)).toInt = -5
      ∧ axis.stepsOfUnits x ≤ axis.stepsOfUnits (ofInt 1 / ofInt 0)
      ∧ axis.stepsOfUnits (ofInt 0 / ofInt 0) = 0 := by
  intro axis x
  have hscale : Scalar.isPositive axis.stepsPerUnit = true := by decide +kernel
  obtain ⟨⟨hmono, hnan, -, -, hodd⟩, hexact, hdouble⟩ := steps_nearest_to_units hscale
  have hthree : value axis.stepsPerUnit = (3 : ℝ) := by
    rw [value_ofInt (by norm_num)]
    norm_num
  have hx : value x = (3 / 2 : ℝ) := by
    have htwo : value (ofInt 2) = (2 : ℝ) := by
      rw [value_ofInt (by norm_num)]
      norm_num
    have hhalf := nearest_half (n := 1) (by norm_num)
    norm_num at hhalf
    rw [value_div (by decide +kernel) (by decide +kernel) (by rw [htwo]; norm_num), htwo, hthree,
      ← EReal.coe_div, hhalf]
  have hproduct : value (x * axis.stepsPerUnit) = ((4 : ℤ) + 1 / 2 : ℝ) := by
    rw [value_mul (isNumber_mul (by decide +kernel) (by decide +kernel)), hx, hthree,
      ← EReal.coe_mul, ← nearest_half (by norm_num)]
    norm_num
  have hneg : value (-x * axis.stepsPerUnit) = ((-5 : ℤ) + 1 / 2 : ℝ) := by
    rw [value_mul (isNumber_mul (by decide +kernel) (by decide +kernel)), value_neg, hx, hthree,
      ← EReal.coe_neg, ← EReal.coe_mul, ← nearest_half (by norm_num)]
    norm_num
  have hfour : nearestWhole ((4 : ℤ) + 1 / 2 : ℝ) = 5 := by
    rw [nearestWhole, if_pos (by norm_num)]
    norm_num
  have hfive : nearestWhole ((-5 : ℤ) + 1 / 2 : ℝ) = -5 := by
    rw [nearestWhole, if_neg (by norm_num)]
    norm_num
  have hunits : real x = 3 / 2 := by rw [real, hx, EReal.toReal_coe]
  have hsteps : axis.exact.stepsPerUnit = 3 := by
    show real axis.stepsPerUnit = 3
    rw [real_ofInt (by norm_num)]
    norm_num
  have hexactly : real x * axis.exact.stepsPerUnit = (4 : ℤ) + 1 / 2 := by
    rw [hunits, hsteps]
    norm_num
  have hhalves : axis.KeepsHalves x := by
    intro n hn
    rw [hproduct, EReal.coe_eq_coe_iff] at hn
    exact hexactly.trans hn
  obtain ⟨hcount, -⟩ := (hdouble x (by decide +kernel)).2 hhalves
  obtain ⟨⟨n, hn, hin, -⟩, -⟩ := hexact (real x)
  obtain rfl : 5 = n := (hn 5).mp (nearestAway_iff.mpr (by rw [hexactly, hfour]))
  obtain ⟨hfive', hback⟩ := hin (by norm_num) (by norm_num)
  rw [← hcount] at hfive' hback
  rw [hunits, hsteps] at hback
  refine ⟨hscale, hfive', hback, ?_, hmono _ _ (by decide +kernel), hnan _ (by decide +kernel)⟩
  rw [hodd x ⟨_, hproduct, by rw [hfour]; norm_num⟩ ⟨_, hneg, by rw [hfive]; norm_num⟩, hfive']

end AxisSettings

end ScaraArm
