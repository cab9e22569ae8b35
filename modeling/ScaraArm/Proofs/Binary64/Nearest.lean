import Mathlib

/-!
# Rounding a real number to a double

The doubles near a number are the multiples of a power of two: the power that leaves the
number 53 bits, or the least power the format has. Rounding picks the nearest multiple,
the even one of two that are equally near. It is done here in two stages. `snap` rounds as
if there were no largest double; it is odd, it never reorders two numbers, and it leaves
what already is a double alone. `nearest` then makes an infinity of everything that has
grown too large, and keeps the order too.
-/

namespace ScaraArm.Binary64

/-! ## Whole numbers -/

/-- The nearest whole number, the even one of two that are equally near. -/
noncomputable def halfEven (r : ℝ) : ℤ :=
  if Int.fract r < 1 - Int.fract r ∨ (Int.fract r = 1 - Int.fract r ∧ Even ⌊r⌋) then ⌊r⌋
  else ⌊r⌋ + 1

/-- `n` is as near to `r` as a whole number can be, and even if it has a rival. -/
def IsHalfEven (r : ℝ) (n : ℤ) : Prop :=
  |r - n| < 1 - |r - n| ∨ (|r - n| = 1 - |r - n| ∧ Even n)

theorem isHalfEven_iff {r : ℝ} {n : ℤ} :
    IsHalfEven r n ↔ |r - n| < 1 / 2 ∨ (|r - n| = 1 / 2 ∧ Even n) := by
  have hlt : |r - n| < 1 - |r - n| ↔ |r - n| < 1 / 2 := by constructor <;> intro h <;> linarith
  have heq : |r - n| = 1 - |r - n| ↔ |r - n| = 1 / 2 := by constructor <;> intro h <;> linarith
  rw [IsHalfEven, hlt, heq]

theorem isHalfEven_halfEven (r : ℝ) : IsHalfEven r (halfEven r) := by
  have hfloor : r - ⌊r⌋ = Int.fract r := rfl
  have hnonneg := Int.fract_nonneg r
  have hlt := Int.fract_lt_one r
  unfold halfEven IsHalfEven
  split_ifs with h
  · rw [hfloor, abs_of_nonneg hnonneg]
    exact h
  · obtain ⟨hge, hodd⟩ := not_or.mp h
    have hup : |r - (⌊r⌋ + 1 : ℤ)| = 1 - Int.fract r := by
      push_cast
      rw [← sub_sub, hfloor, abs_of_nonpos (by linarith)]
      ring
    rw [hup]
    rcases (not_lt.mp hge).lt_or_eq with hgt | heq
    · exact Or.inl (by linarith)
    · refine Or.inr ⟨by linarith, ?_⟩
      rw [Int.even_add_one]
      exact fun he => hodd ⟨heq.symm, he⟩

/-- The nearest whole number is at most a half away. -/
theorem abs_sub_halfEven_le (r : ℝ) : |r - halfEven r| ≤ 1 / 2 := by
  rcases isHalfEven_iff.mp (isHalfEven_halfEven r) with hlt | ⟨heq, -⟩
  · exact hlt.le
  · exact heq.le

/-- The larger number does not have the smaller neighbour. -/
theorem IsHalfEven.le {r s : ℝ} {m n : ℤ} (hm : IsHalfEven r m) (hn : IsHalfEven s n)
    (h : r ≤ s) : m ≤ n := by
  rw [isHalfEven_iff] at hm hn
  by_contra hlt
  have hsucc : (n : ℝ) + 1 ≤ m := by exact_mod_cast Int.add_one_le_of_lt (not_le.mp hlt)
  have hr : (m : ℝ) - 1 / 2 ≤ r ∧ ((m : ℝ) - 1 / 2 = r → Even m) := by
    rcases hm with hm | ⟨hm, he⟩
    · have := (abs_lt.mp hm).1
      exact ⟨by linarith, fun _ => by linarith⟩
    · have := (abs_le.mp hm.le).1
      exact ⟨by linarith, fun _ => he⟩
  have hs : s ≤ (n : ℝ) + 1 / 2 ∧ (s = (n : ℝ) + 1 / 2 → Even n) := by
    rcases hn with hn | ⟨hn, he⟩
    · have := (abs_lt.mp hn).2
      exact ⟨by linarith, fun _ => by linarith⟩
    · have := (abs_le.mp hn.le).2
      exact ⟨by linarith, fun _ => he⟩
  -- both must lie halfway between two neighbours, and one of those is odd
  have heq : (m : ℝ) = n + 1 := by linarith [hr.1, hs.1]
  have heven := hr.2 (by linarith [hr.1, hs.1])
  rw [show m = n + 1 by exact_mod_cast heq, Int.even_add_one] at heven
  exact heven (hs.2 (by linarith [hr.1, hs.1]))

theorem halfEven_eq {r : ℝ} {n : ℤ} (h : IsHalfEven r n) : halfEven r = n :=
  le_antisymm ((isHalfEven_halfEven r).le h le_rfl) (h.le (isHalfEven_halfEven r) le_rfl)

theorem halfEven_mono {r s : ℝ} (h : r ≤ s) : halfEven r ≤ halfEven s :=
  (isHalfEven_halfEven r).le (isHalfEven_halfEven s) h

theorem halfEven_neg (r : ℝ) : halfEven (-r) = -halfEven r := by
  refine halfEven_eq ?_
  have hneg : |-r - (-halfEven r : ℤ)| = |r - halfEven r| := by
    rw [← abs_neg]
    push_cast
    ring_nf
  unfold IsHalfEven
  rw [hneg, even_neg]
  exact isHalfEven_halfEven r

@[simp] theorem halfEven_intCast (n : ℤ) : halfEven n = n :=
  halfEven_eq (Or.inl (by simp))

/-! ## Numbers of 53 bits -/

/-- The exponent of the multiples that a number is rounded to. -/
noncomputable def grid (r : ℝ) : ℤ := max (Int.log 2 |r| - 52) (-1074)

/-- The nearest number of 53 bits, the even one of two, whatever its size. -/
noncomputable def snap (r : ℝ) : ℝ := halfEven (r / (2 : ℕ) ^ grid r) * (2 : ℕ) ^ grid r

/-- A number that a double could stand for if doubles had no bound. -/
def Dyadic (r : ℝ) : Prop :=
  ∃ (m : ℤ) (e : ℤ), |m| < 2 ^ 53 ∧ -1074 ≤ e ∧ r = m * (2 : ℕ) ^ e

theorem snap_eq (r : ℝ) : snap r = halfEven (r / 2 ^ grid r) * 2 ^ grid r := by
  rw [snap, Nat.cast_ofNat]

theorem dyadic_iff {r : ℝ} :
    Dyadic r ↔ ∃ (m : ℤ) (e : ℤ), |m| < 2 ^ 53 ∧ -1074 ≤ e ∧ r = m * 2 ^ e := by
  rw [Dyadic, Nat.cast_ofNat]

@[simp] theorem grid_neg (r : ℝ) : grid (-r) = grid r := by
  rw [grid, grid, abs_neg]

theorem snap_neg (r : ℝ) : snap (-r) = -snap r := by
  rw [snap_eq, snap_eq, grid_neg, neg_div, halfEven_neg]
  push_cast
  ring

/-- What already is a multiple is left alone. -/
theorem snap_of_multiple {r : ℝ} {n : ℤ} (h : r = n * 2 ^ grid r) : snap r = r := by
  have hdiv : r / 2 ^ grid r = n := by
    rw [div_eq_iff (by positivity)]
    exact h
  rw [snap_eq, hdiv, halfEven_intCast, ← h]

theorem zpow_grid_le {e k : ℤ} (h : e ≤ k) :
    (2 : ℝ) ^ k = ((2 ^ (k - e).toNat : ℤ) : ℝ) * 2 ^ e := by
  push_cast
  rw [← zpow_natCast, ← zpow_add₀ two_ne_zero]
  congr 1
  omega

@[simp] theorem snap_zero : snap 0 = 0 := snap_of_multiple (n := 0) (by simp)

/-- **Rounding leaves a double alone.** -/
theorem snap_of_dyadic {r : ℝ} (h : Dyadic r) : snap r = r := by
  obtain ⟨m, e, hm, he, hr⟩ := dyadic_iff.mp h
  rcases eq_or_ne r 0 with rfl | h0
  · exact snap_zero
  have habs : |r| < 2 ^ (e + 53) := by
    have hm' : |(m : ℝ)| < 2 ^ (53 : ℤ) := by exact_mod_cast hm
    rw [hr, abs_mul, abs_of_pos (a := (2 : ℝ) ^ e) (by positivity), add_comm,
      zpow_add₀ two_ne_zero]
    exact mul_lt_mul_of_pos_right hm' (by positivity)
  have hgrid : grid r ≤ e := by
    have := (Int.lt_zpow_iff_log_lt one_lt_two (abs_pos.mpr h0)).mp (by exact_mod_cast habs)
    unfold grid
    omega
  refine snap_of_multiple (n := m * 2 ^ (e - grid r).toNat) ?_
  rw [Int.cast_mul, mul_assoc, ← zpow_grid_le hgrid]
  exact hr

theorem dyadic_intCast {n : ℤ} (h : |n| < 2 ^ 53) : Dyadic n :=
  dyadic_iff.mpr ⟨n, 0, h, by omega, by simp⟩

theorem dyadic_zpow {k : ℤ} (h : -1074 ≤ k) : Dyadic (2 ^ k) :=
  dyadic_iff.mpr ⟨1, k, by norm_num, h, by simp⟩

theorem Dyadic.two_mul (h : Dyadic a) : Dyadic (2 * a) := by
  obtain ⟨m, e, hm, he, rfl⟩ := dyadic_iff.mp h
  refine dyadic_iff.mpr ⟨m, e + 1, hm, by omega, ?_⟩
  rw [zpow_add_one₀ two_ne_zero]
  ring

theorem snap_mono_of_nonneg {r s : ℝ} (h0 : 0 ≤ r) (h : r ≤ s) : snap r ≤ snap s := by
  rcases h0.eq_or_lt with rfl | hr
  · rw [snap_zero]
    have : 0 ≤ halfEven (s / 2 ^ grid s) := by
      have := halfEven_mono (div_nonneg h (by positivity : (0 : ℝ) ≤ 2 ^ grid s))
      rwa [← Int.cast_zero, halfEven_intCast] at this
    rw [snap_eq]
    exact mul_nonneg (by exact_mod_cast this) (by positivity)
  have hs : 0 < s := hr.trans_le h
  have hlog : Int.log 2 r ≤ Int.log 2 s := Int.log_mono_right hr h
  have hgr : grid r = max (Int.log 2 r - 52) (-1074) := by rw [grid, abs_of_pos hr]
  have hgs : grid s = max (Int.log 2 s - 52) (-1074) := by rw [grid, abs_of_pos hs]
  rcases eq_or_ne (grid r) (grid s) with heq | hne
  · rw [snap_eq, snap_eq, heq]
    refine mul_le_mul_of_nonneg_right ?_ (by positivity)
    exact_mod_cast halfEven_mono (div_le_div_of_nonneg_right h (by positivity))
  · -- a power of two lies between the two numbers, and rounding does not cross it
    have hbetween : (r : ℝ) < 2 ^ Int.log 2 s := by
      have : r < ((2 : ℕ) : ℝ) ^ Int.log 2 s :=
        (Int.lt_zpow_iff_log_lt one_lt_two hr).mpr (by omega)
      exact_mod_cast this
    have hbelow : (2 : ℝ) ^ Int.log 2 s ≤ s := by
      exact_mod_cast Int.zpow_log_le_self one_lt_two hs
    have hstop : ∀ e ≤ Int.log 2 s,
        halfEven ((2 : ℝ) ^ Int.log 2 s / 2 ^ e) * (2 : ℝ) ^ e = 2 ^ Int.log 2 s := by
      intro e he
      rw [zpow_grid_le he, mul_div_cancel_right₀ _ (by positivity), halfEven_intCast]
    calc snap r ≤ halfEven ((2 : ℝ) ^ Int.log 2 s / 2 ^ grid r) * 2 ^ grid r := by
          rw [snap_eq]
          refine mul_le_mul_of_nonneg_right ?_ (by positivity)
          exact_mod_cast halfEven_mono (div_le_div_of_nonneg_right hbetween.le (by positivity))
      _ = 2 ^ Int.log 2 s := hstop _ (by omega)
      _ = halfEven ((2 : ℝ) ^ Int.log 2 s / 2 ^ grid s) * 2 ^ grid s := (hstop _ (by omega)).symm
      _ ≤ snap s := by
          rw [snap_eq]
          refine mul_le_mul_of_nonneg_right ?_ (by positivity)
          exact_mod_cast halfEven_mono (div_le_div_of_nonneg_right hbelow (by positivity))

/-- **Rounding never reorders two numbers.** -/
theorem snap_mono : Monotone snap := by
  have hnonneg : ∀ r : ℝ, 0 ≤ r → 0 ≤ snap r := fun r hr => by
    simpa using snap_mono_of_nonneg le_rfl hr
  intro r s h
  rcases le_total 0 r with hr | hr
  · exact snap_mono_of_nonneg hr h
  rcases le_total 0 s with hs | hs
  · calc snap r = -snap (-r) := by rw [snap_neg, neg_neg]
      _ ≤ 0 := neg_nonpos.mpr (hnonneg _ (neg_nonneg.mpr hr))
      _ ≤ snap s := hnonneg s hs
  · have := snap_mono_of_nonneg (neg_nonneg.mpr hs) (neg_le_neg h)
    rw [snap_neg, snap_neg] at this
    exact neg_le_neg_iff.mp this

theorem snap_nonneg {r : ℝ} (h : 0 ≤ r) : 0 ≤ snap r := by
  simpa using snap_mono h

theorem abs_snap (r : ℝ) : |snap r| = snap |r| := by
  rcases abs_cases r with ⟨h, h0⟩ | ⟨h, h0⟩
  · rw [h, abs_of_nonneg (snap_nonneg h0)]
  · rw [h, snap_neg, abs_of_nonpos]
    simpa using snap_mono h0.le

/-! ## Doubles -/

/-- The double nearest to an extended number. What is too large becomes infinite. -/
noncomputable def nearest : EReal → EReal
  | ⊥ => ⊥
  | ⊤ => ⊤
  | (r : ℝ) =>
    if (2 : ℕ) ^ 1024 ≤ snap r then ⊤ else if snap r ≤ -(2 : ℕ) ^ 1024 then ⊥ else snap r

theorem nearest_coe (r : ℝ) :
    nearest r = if 2 ^ 1024 ≤ snap r then ⊤ else if snap r ≤ -2 ^ 1024 then ⊥
      else (snap r : EReal) := by
  show (if ((2 : ℕ) : ℝ) ^ 1024 ≤ snap r then _ else if snap r ≤ -((2 : ℕ) : ℝ) ^ 1024 then _
    else (snap r : EReal)) = _
  rw [Nat.cast_ofNat]

@[simp] theorem nearest_top : nearest ⊤ = ⊤ := rfl

@[simp] theorem nearest_bot : nearest ⊥ = ⊥ := rfl

theorem nearest_of_abs_lt {r : ℝ} (h : |snap r| < 2 ^ 1024) : nearest r = snap r := by
  obtain ⟨hlow, hhigh⟩ := abs_lt.mp h
  rw [nearest_coe, if_neg hhigh.not_ge, if_neg hlow.not_ge]

/-- What is rounded to a real number is rounded to it without a largest double, too. -/
theorem snap_of_nearest {r s : ℝ} (h : nearest r = s) : snap r = s := by
  rw [nearest_coe] at h
  split_ifs at h with htop hbot
  · exact absurd h (EReal.coe_ne_top s).symm
  · exact absurd h (EReal.coe_ne_bot s).symm
  · exact EReal.coe_eq_coe_iff.mp h

/-- What is not below zero is rounded to itself or to infinity. -/
theorem nearest_of_nonneg {r : ℝ} (h : 0 ≤ r) :
    nearest r = if snap r < 2 ^ 1024 then (snap r : EReal) else ⊤ := by
  have hneg : ¬ snap r ≤ -2 ^ 1024 := by
    refine not_le.mpr (lt_of_lt_of_le (neg_lt_zero.mpr (by positivity)) (snap_nonneg h))
  rw [nearest_coe, if_neg hneg]
  by_cases hlt : snap r < 2 ^ 1024
  · rw [if_pos hlt, if_neg hlt.not_ge]
  · rw [if_neg hlt, if_pos (not_lt.mp hlt)]

/-- **Rounding to a double leaves the doubles alone.** -/
theorem nearest_of_dyadic {r : ℝ} (h : Dyadic r) (hr : |r| < 2 ^ 1024) : nearest r = r := by
  have hsnap := snap_of_dyadic h
  rw [nearest_of_abs_lt (by rwa [hsnap]), hsnap]

/-- **Rounding to a double never reorders two numbers.** -/
theorem nearest_mono : Monotone nearest := by
  intro a b h
  induction a with
  | bot => exact bot_le
  | top => rw [top_le_iff.mp h]
  | coe r =>
    induction b with
    | bot => exact absurd h (EReal.bot_lt_coe r).not_ge
    | top => exact le_top
    | coe s =>
      have hsnap := snap_mono (EReal.coe_le_coe_iff.mp h)
      rw [nearest_coe, nearest_coe]
      by_cases hs : 2 ^ 1024 ≤ snap s
      · rw [if_pos hs]
        exact le_top
      rw [if_neg hs, if_neg fun hr => hs (hr.trans hsnap)]
      by_cases hr : snap r ≤ -2 ^ 1024
      · rw [if_pos hr]
        exact bot_le
      rw [if_neg hr, if_neg fun hs' => hr (hsnap.trans hs')]
      exact EReal.coe_le_coe_iff.mpr hsnap

theorem nearest_neg (a : EReal) : nearest (-a) = -nearest a := by
  induction a with
  | bot => rfl
  | top => rfl
  | coe r =>
    have hpow : (0 : ℝ) < 2 ^ 1024 := by positivity
    rw [← EReal.coe_neg, nearest_coe, nearest_coe, snap_neg]
    by_cases hhigh : 2 ^ 1024 ≤ snap r
    · have hneg : -snap r < 2 ^ 1024 := (neg_nonpos.mpr (hpow.le.trans hhigh)).trans_lt hpow
      rw [if_pos hhigh, if_neg hneg.not_ge, if_pos (neg_le_neg hhigh), EReal.neg_top]
    by_cases hlow : snap r ≤ -2 ^ 1024
    · rw [if_pos (le_neg.mpr hlow), if_neg hhigh, if_pos hlow, EReal.neg_bot]
    · rw [if_neg (mt le_neg.mp hlow), if_neg (mt neg_le_neg_iff.mp hhigh), if_neg hhigh,
        if_neg hlow, EReal.coe_neg]

theorem nearest_zero : nearest 0 = 0 := by
  rw [← EReal.coe_zero, nearest_of_abs_lt (by simp), snap_zero]

theorem nearest_nonneg {r : EReal} (h : 0 ≤ r) : 0 ≤ nearest r :=
  nearest_zero ▸ nearest_mono h

/-- From the power of two behind the largest double on, all is infinite. -/
theorem nearest_of_le {r : ℝ} (h : 2 ^ 1024 ≤ r) : nearest r = ⊤ := by
  have hpow : snap (2 ^ (1024 : ℤ)) = 2 ^ (1024 : ℤ) := snap_of_dyadic (dyadic_zpow (by norm_num))
  have hsnap : (2 : ℝ) ^ 1024 ≤ snap r := by
    have hmono := snap_mono (show (2 : ℝ) ^ (1024 : ℤ) ≤ r by exact_mod_cast h)
    rw [hpow] at hmono
    exact_mod_cast hmono
  rw [nearest_coe, if_pos hsnap]

/-- Less than half of the least double is rounded to zero. -/
theorem nearest_of_lt {r : ℝ} (h0 : 0 < r) (h : r < 2 ^ (-1075 : ℤ)) : nearest r = 0 := by
  have hlog : Int.log 2 |r| < -1075 := by
    rw [abs_of_pos h0]
    exact (Int.lt_zpow_iff_log_lt one_lt_two h0).mp (by exact_mod_cast h)
  have hgrid : grid r = -1074 := by
    unfold grid
    omega
  have hhalf : |r / 2 ^ (-1074 : ℤ) - ((0 : ℤ) : ℝ)| < 1 / 2 := by
    rw [Int.cast_zero, sub_zero, abs_of_pos (by positivity), div_lt_iff₀ (by positivity)]
    calc r < 2 ^ (-1075 : ℤ) := h
      _ = 2 ^ (-1 : ℤ) * 2 ^ (-1074 : ℤ) := by rw [← zpow_add₀ two_ne_zero]; rfl
      _ = 1 / 2 * 2 ^ (-1074 : ℤ) := by rw [zpow_neg_one, one_div]
  have hsnap : snap r = 0 := by
    rw [snap_eq, hgrid, halfEven_eq (isHalfEven_iff.mpr (Or.inl hhalf)), Int.cast_zero, zero_mul]
  rw [nearest_of_abs_lt (by rw [hsnap]; norm_num), hsnap, EReal.coe_zero]

end ScaraArm.Binary64
