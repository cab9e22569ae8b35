import Mathlib
import ScaraArm.Proofs.Binary64.Bounded

/-!
# Counts that are cut off

A count of pieces is a quotient of doubles, rounded up and cut off at a limit. The rounding up
is exact: what is above a whole number is counted beyond it, unless the limit is in between. So a
quotient above the limit is counted as the limit and nothing else, also an infinite one, and a
quotient above one is counted as two at least.
-/

namespace ScaraArm.Binary64

/-- Rounding up does not go below the number. -/
theorem le_roundUp (m : Nat) (e : Int) : (m : ℝ) * 2 ^ e ≤ roundUp m e := by
  unfold roundUp
  by_cases he : 0 ≤ e
  · obtain ⟨k, rfl⟩ := Int.eq_ofNat_of_zero_le he
    rw [if_pos he, Nat.shiftLeft_eq, Int.toNat_natCast, zpow_natCast]
    push_cast
    exact le_rfl
  · obtain ⟨k, hk⟩ := Int.eq_ofNat_of_zero_le (show 0 ≤ -e by omega)
    obtain rfl : e = -(k : ℤ) := by omega
    rw [if_neg he]
    dsimp only
    rw [neg_neg, Int.toNat_natCast, Nat.shiftRight_eq_div_pow, Nat.one_shiftLeft, zpow_neg,
      zpow_natCast, ← div_eq_mul_inv, div_le_iff₀ (by positivity)]
    have hceil : m ≤ (m + (2 ^ k - 1)) / 2 ^ k * 2 ^ k := by
      have hpos := Nat.two_pow_pos k
      have hmod := Nat.mod_lt (m + (2 ^ k - 1)) hpos
      have hdiv := Nat.div_add_mod' (m + (2 ^ k - 1)) (2 ^ k)
      omega
    exact_mod_cast hceil

/-- A count does not go beyond its limit. -/
theorem ceilUpTo_le (x : Float) (limit : Nat) : ceilUpTo x limit ≤ limit := by
  unfold ceilUpTo
  split
  · exact le_rfl
  · exact min_le_right _ _
  · exact Nat.zero_le limit

/-- **What is above a whole number is counted beyond it, or as the limit.** -/
theorem min_le_ceilUpTo {x : Float} {n : Nat} (limit : Nat) (hn : n < 2 ^ 53) (h : ofInt n < x) :
    min (n + 1) limit ≤ ceilUpTo x limit := by
  obtain ⟨-, hx, hlt⟩ := lt_iff.mp h
  have habs : |(n : ℤ)| < 2 ^ 53 := by
    rw [Nat.abs_cast]
    exact_mod_cast hn
  rw [value_ofInt habs, Int.cast_natCast] at hlt
  -- so it is neither zero nor negative, which are counted as nothing
  have hpos : 0 < value x := (EReal.coe_nonneg.mpr (Nat.cast_nonneg n)).trans_lt hlt
  unfold ceilUpTo
  unfold value at hlt hpos
  cases hp : parts x with
  | notANumber => exact absurd hp hx
  | zero s =>
    rw [hp] at hpos
    exact absurd hpos (lt_irrefl 0)
  | infinity s =>
    cases s with
    | positive => exact min_le_right _ _
    | negative =>
      rw [hp] at hpos
      exact absurd hpos EReal.bot_lt_zero.not_gt
  | finite s m e hm =>
    rw [hp] at hpos hlt
    cases s with
    | negative => exact absurd hpos (number_negative e hm).not_gt
    | positive =>
      rw [number_finite, signOf, one_mul, EReal.coe_lt_coe_iff] at hlt
      have hup : n < roundUp m e := by
        exact_mod_cast hlt.trans_le (le_roundUp m e)
      exact min_le_min_right limit hup

/-- **What is above the limit is counted as the limit.** -/
theorem ceilUpTo_of_lt {x : Float} {limit : Nat} (hlimit : limit < 2 ^ 53)
    (h : ofInt limit < x) : ceilUpTo x limit = limit := by
  refine le_antisymm (ceilUpTo_le x limit) ?_
  have hmin := min_le_ceilUpTo limit hlimit h
  rwa [min_eq_right (Nat.le_succ limit)] at hmin

end ScaraArm.Binary64
