import Mathlib
import ScaraArm.Proofs.Binary64.Canonical
import ScaraArm.Proofs.Binary64.Nearest

/-!
# What rounding computes

The arithmetic of doubles works on whole numbers: it computes the leading digits of the
exact result, remembers the next digit and whether anything follows it, cuts off what the
format has no room for, and rounds. Here this is tied to the rounding of real numbers. A
mantissa with its two remembered bits locates a real number; cutting off a digit locates
half of it; and the nearest whole number can be told from the two bits. So the result is
the exact number, rounded once.
-/

namespace ScaraArm.Binary64

open Float.Model (Format totalExponent)
open Float.Model.UnpackedFloat

/-! ## Locating a number -/

/-- `t` is the mantissa, then the digit of one half, then something below one half that
vanishes just if the last bit says so. -/
def Locates (t : ℝ) (em : ExtendedMantissa) : Prop :=
  ∃ δ : ℝ, 0 ≤ δ ∧ δ < 1 ∧ (em.stickyBit = false ↔ δ = 0)
    ∧ t = em.mantissa + (em.roundBit.toNat + δ) / (2 : ℕ)

theorem Locates.le {t : ℝ} {em : ExtendedMantissa} (h : Locates t em) : (em.mantissa : ℝ) ≤ t := by
  obtain ⟨δ, h0, -, -, rfl⟩ := h
  have : (0 : ℝ) ≤ em.roundBit.toNat := Nat.cast_nonneg _
  linarith

theorem Locates.lt {t : ℝ} {em : ExtendedMantissa} (h : Locates t em) : t < em.mantissa + 1 := by
  obtain ⟨δ, -, h1, -, rfl⟩ := h
  have : (em.roundBit.toNat : ℝ) ≤ 1 := by exact_mod_cast em.roundBit.toNat_le
  linarith

theorem locates_exact (m : Nat) :
    Locates m (ExtendedMantissa.ofMantissaAndAccuracy m .exact) :=
  ⟨0, le_rfl, one_pos, by simp [ExtendedMantissa.ofMantissaAndAccuracy],
    by simp [ExtendedMantissa.ofMantissaAndAccuracy]⟩

/-- Cutting off one digit locates half of the number: the digit that is cut off becomes the
digit of one half, and everything behind it is what follows. -/
theorem Locates.shiftRightOne {t : ℝ} {em : ExtendedMantissa} (h : Locates t em) :
    Locates (t / 2) em.shiftRightOne := by
  obtain ⟨m, round, sticky⟩ := em
  obtain ⟨δ, h0, h1, hδ, rfl⟩ := h
  have hround : (round.toNat : ℝ) ≤ 1 := by exact_mod_cast round.toNat_le
  have hround0 : (0 : ℝ) ≤ round.toNat := Nat.cast_nonneg _
  refine ⟨(round.toNat + δ) / 2, by linarith, by linarith, ?_, ?_⟩
  · show (round || sticky) = false ↔ _
    rw [Bool.or_eq_false_iff, hδ]
    cases round with
    | false => simp
    | true =>
      have : (1 + δ) / 2 ≠ 0 := by linarith
      simpa using this
  · show _ = ((m / 2 : ℕ) : ℝ) + ((m % 2 != 0).toNat + _) / 2
    have hbit : (m % 2 != 0).toNat = m % 2 := by
      rcases Nat.mod_two_eq_zero_or_one m with hm | hm <;> rw [hm] <;> rfl
    have hm : (m : ℝ) = 2 * (m / 2 : ℕ) + (m % 2 : ℕ) := by exact_mod_cast (Nat.div_add_mod m 2).symm
    rw [hbit, hm]
    ring

theorem Locates.shiftRight {t : ℝ} {em : ExtendedMantissa} (h : Locates t em) (n : Nat) :
    Locates (t / 2 ^ n) (em >>> n) := by
  induction n with
  | zero =>
    rw [pow_zero, div_one]
    exact h
  | succ n ih =>
    rw [pow_succ, ← div_div]
    exact ih.shiftRightOne

/-- **The two bits decide the nearest whole number.** -/
theorem Locates.roundedMantissa {t : ℝ} {em : ExtendedMantissa} (h : Locates t em) :
    (em.roundedMantissa : ℤ) = halfEven t := by
  obtain ⟨m, round, sticky⟩ := em
  obtain ⟨δ, h0, h1, hδ, rfl⟩ := h
  refine (halfEven_eq ?_).symm
  cases round with
  | false =>
    -- less than a half is left, whatever it is
    have hrounded : (ExtendedMantissa.mk m false sticky).roundedMantissa = m := by
      cases sticky <;> rfl
    refine isHalfEven_iff.mpr (Or.inl ?_)
    rw [hrounded]
    push_cast
    rw [abs_lt]
    constructor <;> norm_num <;> linarith
  | true =>
    cases sticky with
    | false =>
      obtain rfl : δ = 0 := hδ.mp rfl
      show IsHalfEven _ ((m + m % 2 : ℕ) : ℤ)
      refine isHalfEven_iff.mpr (Or.inr ⟨?_, ?_⟩)
      · rcases Nat.mod_two_eq_zero_or_one m with hm | hm <;> rw [hm] <;> push_cast <;> norm_num
      · rw [Int.even_coe_nat, Nat.even_iff]
        omega
    | true =>
      have hpos : 0 < δ := h0.lt_of_ne' fun h => by simpa using hδ.mpr h
      show IsHalfEven _ ((m + 1 : ℕ) : ℤ)
      refine isHalfEven_iff.mpr (Or.inl ?_)
      push_cast
      rw [abs_lt]
      constructor <;> norm_num <;> linarith

theorem roundedMantissa_le (em : ExtendedMantissa) : em.roundedMantissa ≤ em.mantissa + 1 := by
  unfold ExtendedMantissa.roundedMantissa Accuracy.roundToNearestEven
  split <;> omega

/-! ## Rounding to the format -/

/-- The leading bit of a number is that of the mantissa it was given with. -/
theorem log_of_locates {v : ℝ} {m : Nat} {e : Int} {a : Accuracy} (hm : 0 < m)
    (h : Locates (v / 2 ^ e) (.ofMantissaAndAccuracy m a)) : Int.log 2 v = m.log2 + e := by
  have hpow : (0 : ℝ) < 2 ^ e := by positivity
  have hle := h.le
  have hlt := h.lt
  rw [mantissa_ofMantissaAndAccuracy, le_div_iff₀ hpow] at hle
  rw [mantissa_ofMantissaAndAccuracy, div_lt_iff₀ hpow] at hlt
  have hv : 0 < v := lt_of_lt_of_le (by positivity) hle
  have hlow : (2 : ℝ) ^ (m.log2 + e : ℤ) ≤ v := by
    rw [zpow_add₀ two_ne_zero, zpow_natCast]
    refine le_trans (mul_le_mul_of_nonneg_right ?_ hpow.le) hle
    exact_mod_cast Nat.log2_self_le hm.ne'
  have hhigh : v < (2 : ℝ) ^ (m.log2 + e + 1 : ℤ) := by
    rw [add_right_comm, zpow_add₀ two_ne_zero]
    refine lt_of_lt_of_le hlt (mul_le_mul_of_nonneg_right ?_ hpow.le)
    exact_mod_cast Nat.succ_le_of_lt (Nat.lt_log2_self (n := m))
  have h₁ := (Int.zpow_le_iff_le_log one_lt_two hv).mp (by exact_mod_cast hlow)
  have h₂ := (Int.lt_zpow_iff_log_lt one_lt_two hv).mp (by exact_mod_cast hhigh)
  omega

/-- Cutting a number to the format leaves the multiples that it is to be rounded to. -/
theorem grid_of_locates {v : ℝ} {m : Nat} {e : Int} {a : Accuracy} (hv : 0 < v)
    (h : Locates (v / 2 ^ e) (.ofMantissaAndAccuracy m a))
    (hbits : 52 ≤ m.log2 ∨ e ≤ -1074) : grid v = e + excess m e := by
  rw [grid, abs_of_pos hv]
  rcases Nat.eq_zero_or_pos m with rfl | hm
  · -- nothing is left of the number but what is below the least double
    rw [Nat.log2_zero] at hbits
    have hlt := h.lt
    rw [mantissa_ofMantissaAndAccuracy, Nat.cast_zero, zero_add,
      div_lt_one (by positivity)] at hlt
    have := (Int.lt_zpow_iff_log_lt one_lt_two hv).mp (by exact_mod_cast hlt)
    unfold excess
    rw [Nat.log2_zero]
    omega
  · rw [log_of_locates hm h]
    unfold excess
    omega

/-- A mantissa that was rounded up to one bit too many loses a zero. -/
theorem two_pow_excess_dvd {m : Nat} {e : Int} (hm : m ≤ 2 ^ 53) (he : -1074 ≤ e) :
    2 ^ excess m e ∣ m := by
  rcases hm.eq_or_lt with rfl | hlt
  · have : excess (2 ^ 53) e = 1 := by
      unfold excess
      rw [Nat.log2_two_pow]
      omega
    rw [this]
    exact Nat.pow_dvd_pow 2 (by omega)
  · have : excess m e = 0 := by
      have : m.log2 < 53 := by
        rcases Nat.eq_zero_or_pos m with rfl | hpos
        · decide
        · exact (Nat.log2_lt hpos.ne').mpr hlt
      unfold excess
      omega
    rw [this, pow_zero]
    exact one_dvd m

/-- **Rounding a located number gives the nearest number of 53 bits**, in the shape of a
double, or a zero if it is zero. -/
theorem roundWithAccuracy_eq (s : Sign) {v : ℝ} {m : Nat} {e : Int} {a : Accuracy} (hv : 0 < v)
    (h : Locates (v / 2 ^ e) (.ofMantissaAndAccuracy m a))
    (hbits : 52 ≤ m.log2 ∨ e ≤ -1074) :
    (snap v = 0 ∧ roundWithAccuracy Format.binary64 s m e a = .zero s)
      ∨ ∃ (m' : Nat) (e' : Int) (h' : 0 < m'),
        roundWithAccuracy Format.binary64 s m e a = .finite s m' e' h'
          ∧ Canonical m' e' ∧ snap v = m' * 2 ^ e' := by
  let em := ExtendedMantissa.ofMantissaAndAccuracy m a >>> excess m e
  let f := e + excess m e
  have hgrid : grid v = f := grid_of_locates hv h hbits
  have hem : em.mantissa = m / 2 ^ excess m e := by
    rw [mantissa_shiftRight, mantissa_ofMantissaAndAccuracy]
  have hlocates : Locates (v / 2 ^ f) em := by
    have := h.shiftRight (excess m e)
    rwa [div_div, ← zpow_natCast, ← zpow_add₀ two_ne_zero] at this
  have hsnap : snap v = em.roundedMantissa * 2 ^ f := by
    rw [snap_eq, hgrid, ← hlocates.roundedMantissa]
    norm_cast
  have hf : -1074 ≤ f := le_add_excess m e
  have hle : em.roundedMantissa ≤ 2 ^ 53 := by
    have := roundedMantissa_le em
    have := div_excess_lt m e
    omega
  -- rounding up may have carried into one bit more, so the number is cut a second time
  let k := excess em.roundedMantissa f
  have hcut : (em.roundedMantissa : ℝ) * 2 ^ f
      = (em.roundedMantissa / 2 ^ k : ℕ) * 2 ^ (f + k) := by
    have hpow : (2 : ℝ) ^ (f + k) = (2 ^ k : ℕ) * 2 ^ f := by
      rw [add_comm, zpow_add₀ two_ne_zero (k : ℤ) f, zpow_natCast]
      norm_cast
    rw [hpow, ← mul_assoc, ← Nat.cast_mul, Nat.div_mul_cancel (two_pow_excess_dvd hle hf)]
  have hround : roundWithAccuracy Format.binary64 s m e a
      = if h : em.roundedMantissa / 2 ^ k = 0 then .zero s
        else .finite s (em.roundedMantissa / 2 ^ k) (f + k) (Nat.pos_of_ne_zero h) := by
    unfold roundWithAccuracy
    simp only [shiftToTargetExponent_eq, mantissa_shiftRight, mantissa_ofMantissaAndAccuracy]
    rfl
  rw [hround]
  by_cases h0 : em.roundedMantissa / 2 ^ k = 0
  · left
    rw [hsnap, hcut, h0, dif_pos rfl]
    exact ⟨by simp, rfl⟩
  · right
    rw [dif_neg h0]
    refine ⟨_, _, _, rfl, ⟨div_excess_lt _ _, le_add_excess _ _, div_excess_full ?_⟩, ?_⟩
    · rcases div_excess_full hbits with hfull | hmin
      · left
        have hge : 2 ^ 52 ≤ em.roundedMantissa := by
          have := le_roundedMantissa em
          omega
        exact (Nat.le_log2 (by omega)).mpr hge
      · exact Or.inr hmin.le
    · rw [hsnap, hcut]

end ScaraArm.Binary64
