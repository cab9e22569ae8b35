import Mathlib
import ScaraArm.Decimal.Shortest
import ScaraArm.Proofs.Binary64.Value

/-!
# The numbers that a double is nearest to

A decimal names a double if the double is the nearest one to it. That is asked in whole numbers:
the decimal and the ends of an interval around the double are brought to one denominator and
compared. The interval is meant to hold just the numbers that are rounded to the double.

It does. On the upper side of a double its neighbour is one digit away, so that half a digit
belongs to it, and the middle itself if the mantissa is even. On the lower side it is the same, but
below a power of two, where the digits are half as large. Only subnormal powers of two have digits
of one size on both sides.
-/

namespace ScaraArm.Binary64

variable {r : ℝ} {e : ℤ}

/-! ## Rounding on a known grid -/

/-- The size of a number tells the digit that it is rounded to. -/
theorem grid_eq (hr : 0 < r) (he : -1074 ≤ e) (hlow : 2 ^ 52 * 2 ^ e ≤ r ∨ e = -1074)
    (hhigh : r < 2 ^ 53 * 2 ^ e) : grid r = e := by
  have hpow : ∀ k : ℕ, (2 : ℝ) ^ k * 2 ^ e = ((2 : ℕ) : ℝ) ^ (k + e) := by
    intro k
    rw [Nat.cast_ofNat, zpow_add₀ two_ne_zero, zpow_natCast]
  rw [hpow] at hlow hhigh
  have hlt := (Int.lt_zpow_iff_log_lt one_lt_two hr).mp hhigh
  rw [grid, abs_of_pos hr]
  rcases hlow with hlow | rfl
  · have hle := (Int.zpow_le_iff_le_log one_lt_two hr).mp hlow
    omega
  · omega

theorem snap_eq_iff {n : ℤ} (h : grid r = e) :
    snap r = n * 2 ^ e
      ↔ |r - n * 2 ^ e| < 2 ^ e / 2 ∨ (|r - n * 2 ^ e| = 2 ^ e / 2 ∧ Even n) := by
  have hpow : (0 : ℝ) < 2 ^ e := by positivity
  have hdist : |r / 2 ^ e - n| = |r - n * 2 ^ e| / 2 ^ e := by
    rw [← abs_of_pos hpow, ← abs_div, abs_of_pos hpow, sub_div, mul_div_cancel_right₀ _ hpow.ne']
  have hround : halfEven (r / 2 ^ e) = n ↔ IsHalfEven (r / 2 ^ e) n :=
    ⟨fun h' => h' ▸ isHalfEven_halfEven _, halfEven_eq⟩
  rw [snap_eq, h, mul_left_inj' hpow.ne', Int.cast_inj, hround, isHalfEven_iff, hdist,
    div_lt_iff₀ hpow, div_eq_iff hpow.ne', one_div_mul_eq_div]

theorem snap_two_pow_mul (he : -1074 ≤ e) (k : ℕ) : snap (2 ^ k * 2 ^ e) = 2 ^ k * 2 ^ e := by
  rw [← zpow_natCast, ← zpow_add₀ two_ne_zero]
  exact snap_of_dyadic (dyadic_zpow (by omega))

end ScaraArm.Binary64

namespace ScaraArm.Decimal

open Binary64

/-! ## Fractions -/

namespace Ratio

/-- The number that a fraction stands for. -/
noncomputable def value (r : Ratio) : ℝ := r.num / r.den

theorem den_ofBinary (m : Nat) (e : Int) : 0 < (ofBinary m e).den := by
  unfold ofBinary
  split_ifs
  · exact one_pos
  · rw [Nat.shiftLeft_eq, one_mul]
    positivity

theorem den_scaleDown {r : Ratio} (h : 0 < r.den) (q : Int) : 0 < (r.scaleDown q).den := by
  unfold scaleDown
  split_ifs
  · exact Nat.mul_pos h (Nat.pow_pos (by omega))
  · exact h

theorem value_ofBinary (m : Nat) (e : Int) : (ofBinary m e).value = m * 2 ^ e := by
  unfold ofBinary value
  split_ifs with h
  · lift e to ℕ using h
    simp [Nat.shiftLeft_eq]
  · obtain ⟨k, rfl⟩ : ∃ k : ℕ, e = -k := ⟨e.natAbs, by omega⟩
    simp [Nat.shiftLeft_eq, div_eq_mul_inv]

theorem value_scaleDown (r : Ratio) (q : Int) : (r.scaleDown q).value = r.value / 10 ^ q := by
  unfold scaleDown value
  split_ifs with h
  · lift q to ℕ using h
    simp [div_div]
  · obtain ⟨k, rfl⟩ : ∃ k : ℕ, q = -k := ⟨q.natAbs, by omega⟩
    simp [mul_div_right_comm]

theorem floor_eq (r : Ratio) : r.floor = ⌊r.value⌋₊ := (Nat.floor_div_eq_div r.num r.den).symm

end Ratio

/-! ## Intervals -/

namespace Interval

/-- The numbers of an interval. -/
def numbers (i : Interval) : Set ℝ :=
  if i.closed then Set.Icc (i.low * (2 : ℕ) ^ i.exponent) (i.high * (2 : ℕ) ^ i.exponent)
  else Set.Ioo (i.low * (2 : ℕ) ^ i.exponent) (i.high * (2 : ℕ) ^ i.exponent)

theorem ordConnected_numbers (i : Interval) : i.numbers.OrdConnected := by
  unfold numbers
  split_ifs
  · exact Set.ordConnected_Icc
  · exact Set.ordConnected_Ioo

/-- **The check in whole numbers is whether the decimal lies in the interval.** -/
theorem contains_iff {i : Interval} {c : Nat} {q : Int} :
    i.contains c q = true ↔ (c * 10 ^ q : ℝ) ∈ i.numbers := by
  obtain ⟨low, high, closed, exponent⟩ := i
  have hden := Ratio.den_scaleDown (Ratio.den_ofBinary 1 exponent) q
  have hvalue : ((Ratio.ofBinary 1 exponent).scaleDown q).value = 2 ^ exponent / 10 ^ q := by
    rw [Ratio.value_scaleDown, Ratio.value_ofBinary, Nat.cast_one, one_mul]
  unfold contains numbers
  dsimp only
  generalize (Ratio.ofBinary 1 exponent).scaleDown q = unit at hden hvalue ⊢
  have hpow : (0 : ℝ) < 10 ^ q := by positivity
  have hden : (0 : ℝ) < unit.den := by exact_mod_cast hden
  -- all three are whole multiples of one number
  obtain ⟨s, hs, hend, hpoint⟩ : ∃ s : ℝ, 0 < s
      ∧ (∀ a : ℕ, (a * (2 : ℕ) ^ exponent : ℝ) = (a * unit.num : ℕ) * s)
      ∧ (c * 10 ^ q : ℝ) = (c * unit.den : ℕ) * s := by
    refine ⟨10 ^ q / unit.den, div_pos hpow hden, fun a => ?_, ?_⟩
    · rw [Ratio.value, div_eq_div_iff hden.ne' hpow.ne'] at hvalue
      rw [Nat.cast_ofNat, Nat.cast_mul, mul_assoc, mul_div_assoc', hvalue,
        mul_div_cancel_right₀ _ hden.ne']
    · rw [Nat.cast_mul, mul_assoc, mul_div_cancel₀ _ hden.ne']
  rw [hend, hend, hpoint]
  cases closed
  · simp only [Bool.false_eq_true, if_false, Set.mem_Ioo, mul_lt_mul_iff_left₀ hs, Nat.cast_lt,
      Bool.and_eq_true, decide_eq_true_eq]
  · simp only [if_true, Set.mem_Icc, mul_le_mul_iff_left₀ hs, Nat.cast_le, Bool.and_eq_true,
      decide_eq_true_eq]

theorem mem_numbers {i : Interval} {r : ℝ} :
    r ∈ i.numbers
      ↔ (i.low * 2 ^ i.exponent < r ∨ (i.low * 2 ^ i.exponent = r ∧ i.closed = true))
        ∧ (r < i.high * 2 ^ i.exponent ∨ (r = i.high * 2 ^ i.exponent ∧ i.closed = true)) := by
  unfold numbers
  rw [Nat.cast_ofNat]
  cases i.closed
  · simp only [Bool.false_eq_true, if_false, Set.mem_Ioo, and_false, or_false]
  · simp only [if_true, Set.mem_Icc, and_true, le_iff_lt_or_eq]

/-! ## The interval of a double -/

section

variable {m : Nat} {e : Int} {r : ℝ}

theorem closed_of : (of m e).closed = true ↔ Even (m : ℤ) := by
  rw [Int.even_coe_nat, Nat.even_iff]
  exact decide_eq_true_iff

theorem two_zpow_quarter (e : Int) : (2 : ℝ) ^ e = 4 * 2 ^ (e - 2) := by
  have hfour : (2 : ℝ) ^ (2 : ℤ) = 4 := by norm_num
  rw [← hfour, ← zpow_add₀ two_ne_zero, add_sub_cancel]

/-- Above a double half a digit belongs to it. -/
theorem high_of : ((of m e).high * 2 ^ (of m e).exponent : ℝ) = m * 2 ^ e + 2 ^ e / 2 := by
  show ((4 * m + 2 : ℕ) : ℝ) * 2 ^ (e - 2) = _
  rw [two_zpow_quarter e]
  push_cast
  ring

theorem low_of (hm : 0 < m) :
    ((of m e).low * 2 ^ (of m e).exponent : ℝ)
      = m * 2 ^ e - if m = 2 ^ 52 ∧ -1074 < e then 2 ^ e / 4 else 2 ^ e / 2 := by
  show ((4 * m - if m = 1 <<< 52 ∧ -1074 < e then 1 else 2 : ℕ) : ℝ) * 2 ^ (e - 2) = _
  rw [two_zpow_quarter e, Nat.one_shiftLeft]
  split_ifs
  · rw [Nat.cast_sub (by omega)]
    push_cast
    ring
  · rw [Nat.cast_sub (by omega)]
    push_cast
    ring

theorem low_of_lt (hm : 0 < m) :
    ((of m e).low * 2 ^ (of m e).exponent : ℝ) < m * 2 ^ e := by
  have hpow : (0 : ℝ) < 2 ^ e := by positivity
  rw [low_of hm]
  split_ifs <;> linarith

theorem lt_high_of : (m * 2 ^ e : ℝ) < (of m e).high * 2 ^ (of m e).exponent := by
  have hpow : (0 : ℝ) < 2 ^ e := by positivity
  rw [high_of]
  linarith

/-- A double is in its own interval. -/
theorem mem_numbers_self (hm : 0 < m) : (m * 2 ^ e : ℝ) ∈ (of m e).numbers :=
  mem_numbers.mpr ⟨Or.inl (low_of_lt hm), Or.inl lt_high_of⟩

theorem pos_of_mem_numbers (hm : 0 < m) (h : r ∈ (of m e).numbers) : 0 < r := by
  have hlow : (0 : ℝ) < (of m e).low * 2 ^ (of m e).exponent := by
    have hpow : (0 : ℝ) < 2 ^ e := by positivity
    have hone : (1 : ℝ) ≤ m := by exact_mod_cast hm
    rw [low_of hm]
    split_ifs <;> nlinarith
  rcases (mem_numbers.mp h).1 with hlt | ⟨heq, -⟩
  · exact hlow.trans hlt
  · exact hlow.trans_eq heq

/-- On the upper side of a double the numbers of its interval are those that are rounded to it. -/
theorem mem_numbers_iff_of_le (hc : Canonical m e) (hm : 0 < m) (h : m * 2 ^ e ≤ r) :
    r ∈ (of m e).numbers ↔ snap r = m * 2 ^ e := by
  have hpow : (0 : ℝ) < 2 ^ e := by positivity
  have hbits : (m : ℝ) + 1 ≤ 2 ^ 53 := by exact_mod_cast hc.lt
  rw [mem_numbers, high_of, closed_of, and_iff_right (Or.inl ((low_of_lt hm).trans_le h))]
  by_cases hr : r < 2 ^ 53 * 2 ^ e
  · have hfull : 2 ^ 52 * 2 ^ e ≤ r ∨ e = -1074 := hc.full.imp_left fun hm =>
      (mul_le_mul_of_nonneg_right (by exact_mod_cast hm) hpow.le).trans h
    have hsnap := snap_eq_iff (n := m) (grid_eq (lt_of_lt_of_le (by positivity) h) hc.le hfull hr)
    rw [Int.cast_natCast] at hsnap
    rw [hsnap, abs_of_nonneg (sub_nonneg.mpr h), sub_lt_iff_lt_add', sub_eq_iff_eq_add']
  · -- what has more digits in front is rounded to more
    have hr := not_lt.mp hr
    have hsnap := (snap_two_pow_mul hc.le 53).symm.trans_le (snap_mono hr)
    refine iff_of_false (fun hmem => ?_) fun heq => by nlinarith
    have hle : r ≤ m * 2 ^ e + 2 ^ e / 2 := hmem.elim le_of_lt fun heq => heq.1.le
    nlinarith

/-- On the lower side, too, as far as the digits stay the same. -/
theorem mem_numbers_iff_of_digit (hc : Canonical m e) (hm : 0 < m) (hr : 0 < r)
    (h : r < m * 2 ^ e) (hdigit : 2 ^ 52 * 2 ^ e ≤ r ∨ e = -1074) :
    r ∈ (of m e).numbers ↔ snap r = m * 2 ^ e := by
  have hpow : (0 : ℝ) < 2 ^ e := by positivity
  have hwide : ¬ (m = 2 ^ 52 ∧ -1074 < e) := by
    rintro ⟨rfl, he⟩
    rw [Nat.cast_pow, Nat.cast_ofNat] at h
    exact absurd h (hdigit.resolve_right he.ne').not_gt
  have hgrid : grid r = e := grid_eq hr hc.le hdigit
    (h.trans (mul_lt_mul_of_pos_right (by exact_mod_cast hc.lt) hpow))
  have hsnap := snap_eq_iff (n := m) hgrid
  rw [Int.cast_natCast, abs_sub_comm, abs_of_pos (sub_pos.mpr h), sub_eq_iff_eq_add'] at hsnap
  rw [mem_numbers, closed_of, and_iff_left (Or.inl (h.trans lt_high_of)), low_of hm, if_neg hwide,
    hsnap, sub_lt_comm, sub_eq_iff_eq_add]

/-- Below a power of two the digits are half as large. -/
theorem mem_numbers_iff_of_power (he : -1074 < e) (hr : 0 < r) (h : r < 2 ^ 52 * 2 ^ e)
    (hdigit : 2 ^ 51 * 2 ^ e ≤ r) :
    r ∈ (of (2 ^ 52) e).numbers ↔ snap r = 2 ^ 52 * 2 ^ e := by
  have hhalf : (2 : ℝ) ^ e = 2 * 2 ^ (e - 1) := by
    rw [← zpow_one_add₀ two_ne_zero, add_sub_cancel]
  have hmantissa : ((2 ^ 52 : ℕ) : ℝ) = 2 ^ 52 := by norm_cast
  have hgrid : grid r = e - 1 := by
    rw [hhalf] at h hdigit
    exact grid_eq hr (by omega) (Or.inl (by linarith)) (by linarith)
  have hsnap := snap_eq_iff (n := 2 ^ 53) hgrid
  have hdouble : ((2 ^ 53 : ℤ) : ℝ) * 2 ^ (e - 1) = 2 ^ 52 * 2 ^ e := by
    rw [hhalf]
    push_cast
    ring
  have hquarter : (2 : ℝ) ^ (e - 1) / 2 = 2 ^ e / 4 := by
    rw [hhalf]
    ring
  have heven : Even (2 ^ 53 : ℤ) ↔ Even ((2 ^ 52 : ℕ) : ℤ) := by decide
  rw [hdouble, abs_sub_comm, abs_of_pos (sub_pos.mpr h), sub_eq_iff_eq_add', hquarter,
    heven] at hsnap
  have hupper := lt_high_of (m := 2 ^ 52) (e := e)
  rw [hmantissa] at hupper
  rw [mem_numbers, closed_of, and_iff_left (Or.inl (h.trans hupper)), low_of (by norm_num),
    if_pos ⟨rfl, he⟩, hmantissa, hsnap, sub_lt_comm, sub_eq_iff_eq_add]

/-- What has fewer digits in front is rounded to less. -/
theorem mem_numbers_iff_of_far (hc : Canonical m e) (hm : 0 < m) {k : ℕ} (hk : 2 ^ k < m)
    (h : r < 2 ^ k * 2 ^ e) : r ∈ (of m e).numbers ↔ snap r = m * 2 ^ e := by
  have hpow : (0 : ℝ) < 2 ^ e := by positivity
  have hk : (2 : ℝ) ^ k + 1 ≤ m := by exact_mod_cast hk
  have hsnap := (snap_mono h.le).trans_eq (snap_two_pow_mul hc.le k)
  have hlow : (m * 2 ^ e - 2 ^ e / 2 : ℝ) ≤ (of m e).low * 2 ^ (of m e).exponent := by
    rw [low_of hm]
    split_ifs <;> linarith
  refine iff_of_false (fun hmem => ?_) fun heq => by nlinarith
  have hle := (mem_numbers.mp hmem).1.elim le_of_lt fun heq => heq.1.le
  nlinarith

theorem mem_numbers_iff_of_lt (hc : Canonical m e) (hm : 0 < m) (hr : 0 < r) (h : r < m * 2 ^ e) :
    r ∈ (of m e).numbers ↔ snap r = m * 2 ^ e := by
  by_cases hdigit : 2 ^ 52 * 2 ^ e ≤ r ∨ e = -1074
  · exact mem_numbers_iff_of_digit hc hm hr h hdigit
  obtain ⟨hless, hmin⟩ := not_or.mp hdigit
  have hless := not_le.mp hless
  rcases (hc.full.resolve_right hmin).lt_or_eq with hlt | rfl
  · exact mem_numbers_iff_of_far hc hm hlt hless
  by_cases hnear : 2 ^ 51 * 2 ^ e ≤ r
  · have hpower := mem_numbers_iff_of_power (by have := hc.le; omega) hr hless hnear
    rwa [Nat.cast_pow, Nat.cast_ofNat]
  · exact mem_numbers_iff_of_far hc hm (by norm_num) (not_le.mp hnear)

/-- **The numbers in the interval of a double are those that are rounded to it.** -/
theorem mem_numbers_iff (hc : Canonical m e) (hm : 0 < m) (hr : 0 < r) :
    r ∈ (of m e).numbers ↔ snap r = m * 2 ^ e := by
  rcases le_or_gt (m * 2 ^ e : ℝ) r with h | h
  · exact mem_numbers_iff_of_le hc hm h
  · exact mem_numbers_iff_of_lt hc hm hr h

end

end Interval

end ScaraArm.Decimal
