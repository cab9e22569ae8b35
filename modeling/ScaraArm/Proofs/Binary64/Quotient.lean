import Mathlib
import ScaraArm.Proofs.Binary64.Bounded

/-!
# Dividing by something smaller

A line is cut up when it is longer than the longest piece, and the number of its pieces is the
quotient of the two lengths, rounded up. Two doubles can be neighbours, and then their quotient
is as near to one as a quotient can be: rounding could lose what is above one, and a line that is
to be cut up would have a single piece.

It does not, also where doubles have few digits left. What two doubles differ by is at least a
digit of one of them, and the smaller has less than `2 ^ 53` such digits. So the quotient is above
`1 + 2 ^ (-53)`, which is halfway to the next double behind one. The other way round there is
nothing to lose: rounding keeps the order, and one is a double.
-/

namespace ScaraArm.Binary64

/-! ## Real numbers -/

section

variable {a r t : ℝ}

/-- Two doubles differ by a digit that the smaller has less than `2 ^ 53` of. -/
theorem exists_digit (ha : Dyadic a) (hr : Dyadic r) (h : a < r) :
    ∃ e : ℤ, (2 : ℝ) ^ e ≤ r - a ∧ a < 2 ^ 53 * 2 ^ e := by
  obtain ⟨m, i, hm, -, rfl⟩ := dyadic_iff.mp ha
  obtain ⟨n, j, hn, -, rfl⟩ := dyadic_iff.mp hr
  refine ⟨min i j, ?_, ?_⟩
  · -- both are whole multiples of the finer digit
    rw [zpow_grid_le (min_le_left i j), zpow_grid_le (min_le_right i j), ← mul_assoc, ← mul_assoc,
      ← Int.cast_mul, ← Int.cast_mul] at h ⊢
    have hpow : (0 : ℝ) < 2 ^ min i j := by positivity
    have hlt := Int.cast_lt.mp (lt_of_mul_lt_mul_right h hpow.le)
    have hone : (1 : ℝ) ≤ ((n * 2 ^ (j - min i j).toNat : ℤ) : ℝ)
        - ((m * 2 ^ (i - min i j).toNat : ℤ) : ℝ) := by
      exact_mod_cast (by omega :
        (1 : ℤ) ≤ n * 2 ^ (j - min i j).toNat - m * 2 ^ (i - min i j).toNat)
    calc (2 : ℝ) ^ min i j = 1 * 2 ^ min i j := (one_mul _).symm
      _ ≤ _ := by
        rw [← sub_mul]
        exact mul_le_mul_of_nonneg_right hone hpow.le
  · have hfew : ∀ {k : ℤ} (e : ℤ), |k| < 2 ^ 53 → (k : ℝ) * 2 ^ e < 2 ^ 53 * 2 ^ e := by
      intro k e hk
      refine mul_lt_mul_of_pos_right ?_ (by positivity)
      exact_mod_cast (le_abs_self k).trans_lt hk
    rcases min_cases i j with ⟨hmin, -⟩ | ⟨hmin, -⟩
    · rw [hmin]
      exact hfew i hm
    · rw [hmin]
      exact h.trans (hfew j hn)

/-- The quotient of two doubles is not near to one from above. -/
theorem one_add_lt_div (ha : Dyadic a) (hr : Dyadic r) (hpos : 0 < a) (h : a < r) :
    1 + 1 / 2 ^ 53 < r / a := by
  obtain ⟨e, hdigit, hfew⟩ := exists_digit ha hr h
  rw [lt_div_iff₀ hpos]
  calc (1 + 1 / 2 ^ 53) * a = a + a / 2 ^ 53 := by ring
    _ < a + 2 ^ e := by
        gcongr
        rw [div_lt_iff₀ (by positivity), mul_comm]
        exact hfew
    _ ≤ r := by linarith

/-- What is above the middle between one and the next double is not rounded to one. -/
theorem one_lt_snap (h : 1 + 1 / 2 ^ 53 < t) : 1 < snap t := by
  rcases le_or_gt 2 t with hlarge | hsmall
  · calc (1 : ℝ) < 2 := one_lt_two
      _ = snap 2 := (snap_of_dyadic (by exact_mod_cast dyadic_intCast (n := 2) (by norm_num))).symm
      _ ≤ snap t := snap_mono hlarge
  -- below two the digits of `t` are those of one
  have hone : 1 < t := lt_trans (by norm_num) h
  have hlog : Int.log 2 |t| = 0 := by
    rw [abs_of_pos (one_pos.trans hone)]
    refine le_antisymm ?_ ?_
    · exact Int.lt_add_one_iff.mp ((Int.lt_zpow_iff_log_lt one_lt_two (one_pos.trans hone)).mp
        (by simpa using hsmall))
    · exact (Int.zpow_le_iff_le_log one_lt_two (one_pos.trans hone)).mp (by simpa using hone.le)
  have hgrid : grid t = -52 := by
    rw [grid, hlog]
    norm_num
  have hscale : t / 2 ^ grid t = t * 2 ^ 52 := by
    rw [hgrid, zpow_neg, div_inv_eq_mul]
    norm_cast
  have habove : (2 : ℝ) ^ 52 + 1 / 2 < t * 2 ^ 52 := by
    calc (2 : ℝ) ^ 52 + 1 / 2 = (1 + 1 / 2 ^ 53) * 2 ^ 52 := by norm_num
      _ < t * 2 ^ 52 := mul_lt_mul_of_pos_right h (by positivity)
  have hround : (2 : ℝ) ^ 52 < halfEven (t * 2 ^ 52) := by
    have hhalf := (abs_le.mp (abs_sub_halfEven_le (t * 2 ^ 52))).2
    calc (2 : ℝ) ^ 52 < t * 2 ^ 52 - 1 / 2 := lt_sub_iff_add_lt.mpr habove
      _ ≤ halfEven (t * 2 ^ 52) := sub_le_comm.mp hhalf
  have hunit : (2 : ℝ) ^ 52 * 2 ^ (-52 : ℤ) = 1 := by norm_num
  calc (1 : ℝ) = 2 ^ 52 * 2 ^ (-52 : ℤ) := hunit.symm
    _ < halfEven (t * 2 ^ 52) * 2 ^ (-52 : ℤ) := mul_lt_mul_of_pos_right hround (by positivity)
    _ = snap t := by rw [snap_eq, hscale, hgrid]

end

/-! ## Doubles -/

section

variable {x y : Float} {a : ℝ}

/-- A number that is divided by a length is the double nearest to the quotient, also if it is
infinite. -/
theorem value_div_length (hx : IsNumber x) (hy : Measures y a) :
    value (x / y) = nearest (value x / a) := by
  have hvalue := hy.value_eq
  by_cases hfin : x.isFinite = true
  · rw [value_div hfin hy.isFinite hy.value_ne_zero, hvalue]
  -- an infinite number keeps its sign, because a length is above zero
  have hpos : (0 : EReal) < a := EReal.coe_pos.mpr hy.pos
  rw [isFinite_eq] at hfin
  unfold value at hvalue ⊢
  rw [parts_div]
  cases px : parts x with
  | notANumber => exact absurd px hx
  | zero s => rw [px] at hfin; exact absurd rfl hfin
  | finite s m e hm => rw [px] at hfin; exact absurd rfl hfin
  | infinity s =>
    cases py : parts y with
    | notANumber => exact absurd py hy.bounded.1
    | zero t => rw [py] at hvalue; exact absurd hvalue hpos.ne
    | infinity t =>
      rw [py] at hvalue
      exact absurd hvalue (number_infinity_ne_coe t a)
    | finite t m e hm =>
      refine (rounds_infinity (s / t)).2.trans ?_
      rw [py] at hvalue
      cases t with
      | negative =>
        have hneg := number_negative e hm
        rw [hvalue] at hneg
        exact absurd hneg hpos.not_gt
      | positive =>
        cases s with
        | positive =>
          show nearest ⊤ = nearest (⊤ / a)
          rw [EReal.top_div_of_pos_ne_top hpos (EReal.coe_ne_top a)]
        | negative =>
          show nearest ⊥ = nearest (⊥ / a)
          rw [EReal.bot_div_of_pos_ne_top hpos (EReal.coe_ne_top a)]

/-- An undefined number stays so when it is divided. -/
theorem isNumber_of_div (h : IsNumber (x / y)) : IsNumber x := by
  intro px
  rw [IsNumber, parts_div, px] at h
  exact h parts_pack_notANumber

theorem value_one : value (ofInt 1) = (1 : ℝ) := by
  rw [value_ofInt (by norm_num), Int.cast_one]

/-- **A quotient above one was taken of something longer than the divisor.** -/
theorem lt_of_one_lt_div (hy : Measures y a) (h : ofInt 1 < x / y) : y < x := by
  obtain ⟨-, hdiv, hlt⟩ := lt_iff.mp h
  have hx := isNumber_of_div hdiv
  refine lt_iff.mpr ⟨hy.bounded.1, hx, ?_⟩
  by_contra hle
  rw [hy.value_eq] at hle
  have hquotient : value x / a ≤ (1 : ℝ) := by
    calc value x / a ≤ a / a := EReal.div_le_div_right_of_nonneg
          (EReal.coe_nonneg.mpr hy.pos.le) (not_lt.mp hle)
      _ = (1 : ℝ) := by rw [← EReal.coe_div, div_self hy.pos.ne']
  have hround : value (x / y) ≤ value (ofInt 1) := by
    rw [value_div_length hx hy, ← nearest_value (isNumber_ofInt 1), value_one]
    exact nearest_mono hquotient
  exact absurd hlt hround.not_gt

/-- **The quotient of something longer than a length is above one**, however little longer it is. -/
theorem one_lt_div_of_lt (hy : Measures y a) (h : y < x) : ofInt 1 < x / y := by
  obtain ⟨-, hx, hlt⟩ := lt_iff.mp h
  rw [hy.value_eq] at hlt
  have hround := value_div_length hx hy
  have hquotient : ((1 : ℝ) : EReal) < nearest (value x / a) := by
    by_cases hfin : x.isFinite = true
    · obtain ⟨r, hr, hdyadic, -⟩ := exists_real hfin
      rw [hr] at hlt ⊢
      have hlt := EReal.coe_lt_coe_iff.mp hlt
      have hsnap := one_lt_snap (one_add_lt_div hy.dyadic hdyadic hy.pos hlt)
      rw [← EReal.coe_div, nearest_of_nonneg (div_pos (hy.pos.trans hlt) hy.pos).le]
      split
      · exact EReal.coe_lt_coe_iff.mpr hsnap
      · exact EReal.coe_lt_top 1
    · rcases value_of_not_isFinite hx hfin with htop | hbot
      · rw [htop, EReal.top_div_of_pos_ne_top (EReal.coe_pos.mpr hy.pos) (EReal.coe_ne_top a)]
        exact EReal.coe_lt_top 1
      · rw [hbot] at hlt
        exact absurd hlt not_lt_bot
  have hdiv : IsNumber (x / y) := isNumber_div hx hy.isFinite hy.value_ne_zero
  refine lt_iff.mpr ⟨isNumber_ofInt 1, hdiv, ?_⟩
  rw [value_one, hround]
  exact hquotient

end

end ScaraArm.Binary64
