import Mathlib
import ScaraArm.Proofs.Binary64.Rounding

/-!
# The numbers that doubles stand for

A double that is not undefined stands for an extended real number. Doubles are compared as
their numbers are, and sums, differences and products that are numbers at all are the exact
ones, rounded to a double. These laws are all that is needed to reason about double
arithmetic: rounding keeps the order and leaves doubles alone, whatever the sizes.
-/

namespace ScaraArm.Binary64

open Float.Model (Format totalExponent)
open Float.Model.UnpackedFloat

/-! ## Numbers -/

/-- Plus or minus one. -/
def signOf : Sign → ℝ
  | .positive => 1
  | .negative => -1

/-- The number that the parts of a double stand for; zero if they are undefined. -/
noncomputable def number : Parts → EReal
  | .notANumber => 0
  | .infinity .positive => ⊤
  | .infinity .negative => ⊥
  | .zero _ => 0
  | .finite s m e _ => (signOf s * (m * (2 : ℕ) ^ e) : ℝ)

/-- The number that a double stands for; zero if it is undefined. -/
noncomputable def value (x : Float) : EReal := number (parts x)

/-- The double is not undefined. -/
def IsNumber (x : Float) : Prop := parts x ≠ .notANumber

theorem number_finite (s : Sign) {m : Nat} (e : Int) (h : 0 < m) :
    number (.finite s m e h) = (signOf s * (m * 2 ^ e) : ℝ) := by
  rw [number, Nat.cast_ofNat]

theorem signOf_mul (s t : Sign) : signOf (s * t) = signOf s * signOf t := by
  cases s with
  | positive => cases t <;> exact (one_mul _).symm
  | negative =>
    cases t with
    | positive => exact (mul_one (-1)).symm
    | negative =>
      show (1 : ℝ) = -1 * -1
      rw [neg_mul_neg, one_mul]

theorem signOf_div (s t : Sign) : signOf (s / t) = signOf s / signOf t := by
  have hdiv : s / t = s * t := by cases s <;> cases t <;> rfl
  have hinv : (signOf t)⁻¹ = signOf t := by cases t <;> norm_num [signOf]
  rw [hdiv, signOf_mul, div_eq_mul_inv, hinv]

theorem signOf_neg (s : Sign) : signOf (-s) = -signOf s := by
  cases s with
  | positive => rfl
  | negative => exact (neg_neg (1 : ℝ)).symm

theorem abs_signOf (s : Sign) : |signOf s| = 1 := by
  cases s <;> norm_num [signOf]

theorem apply_eq (s : Sign) (n : Int) : ((s.apply n : ℤ) : ℝ) = signOf s * n := by
  cases s <;> simp [signOf, Sign.apply]

theorem snap_signOf_mul (s : Sign) (r : ℝ) : snap (signOf s * r) = signOf s * snap r := by
  cases s with
  | positive => rw [signOf, one_mul, one_mul]
  | negative => rw [signOf, neg_one_mul, neg_one_mul, snap_neg]

theorem dyadic_signOf_mul (s : Sign) {m : Nat} {e : Int} (h : Canonical m e) :
    Dyadic (signOf s * (m * 2 ^ e)) := by
  refine dyadic_iff.mpr ⟨s.apply m, e, ?_, h.le, ?_⟩
  · have habs : |s.apply m| = m := by cases s <;> simp [Sign.apply]
    rw [habs]
    exact_mod_cast h.lt
  · rw [apply_eq, Int.cast_natCast, mul_assoc]

theorem two_pow_1024 (k : Nat) :
    (2 : ℝ) ^ 1024 = 2 ^ k * 2 ^ (1024 - k : ℤ) := by
  rw [← zpow_natCast, ← zpow_natCast, ← zpow_add₀ two_ne_zero]
  congr 1
  push_cast
  ring

/-- Up to the greatest exponent a number in the shape of a double is in their range. -/
theorem Canonical.mul_lt_two_pow {m : Nat} {e : Int} (h : Canonical m e) (he : e < 972) :
    (m : ℝ) * 2 ^ e < 2 ^ 1024 := by
  have hlt : (m : ℝ) < 2 ^ 53 := by exact_mod_cast h.lt
  rw [two_pow_1024 53]
  calc (m : ℝ) * 2 ^ e < 2 ^ 53 * 2 ^ e := by gcongr
    _ ≤ 2 ^ 53 * 2 ^ (1024 - (53 : ℕ) : ℤ) := by gcongr; norm_num; omega

/-- Above it, it is not. -/
theorem Canonical.two_pow_le_mul {m : Nat} {e : Int} (h : Canonical m e) (he : 972 ≤ e) :
    (2 : ℝ) ^ 1024 ≤ m * 2 ^ e := by
  have hfull : (2 : ℝ) ^ 52 ≤ m := by exact_mod_cast h.full.resolve_right (by omega)
  rw [two_pow_1024 52]
  gcongr
  · norm_num
  · omega

/-! ## Finite doubles -/

theorem isNaN_iff {x : Float} : x.isNaN = true ↔ ¬ IsNumber x := by
  show (parts x).isNaN = true ↔ _
  unfold IsNumber
  cases parts x <;> simp [Float.Model.UnpackedFloat.isNaN]

theorem isFinite_eq (x : Float) : x.isFinite = (parts x).isFinite := rfl

/-- A finite double stands for a real number of 53 bits. -/
theorem exists_real {x : Float} (h : x.isFinite = true) :
    ∃ r : ℝ, value x = r ∧ Dyadic r ∧ |r| < 2 ^ 1024 := by
  rw [isFinite_eq] at h
  unfold value
  cases hx : parts x with
  | notANumber => rw [hx] at h; cases h
  | infinity s => rw [hx] at h; cases h
  | zero s =>
    exact ⟨0, rfl, ⟨0, 0, by norm_num, by norm_num, by norm_num⟩, by norm_num⟩
  | finite s m e hm =>
    have hc := canonical_of_parts hx
    refine ⟨_, number_finite s e hm, dyadic_signOf_mul s hc, ?_⟩
    rw [abs_mul, abs_signOf, one_mul, abs_of_nonneg (by positivity)]
    exact hc.mul_lt_two_pow (lt_of_parts hx)

theorem isNumber_of_isFinite {x : Float} (h : x.isFinite = true) : IsNumber x := by
  intro hx
  rw [isFinite_eq, hx] at h
  cases h

theorem number_infinity_ne_coe (s : Sign) (r : ℝ) : number (.infinity s) ≠ r := by
  cases s with
  | positive => exact EReal.top_ne_coe r
  | negative => exact EReal.bot_ne_coe r

/-- A number that is not infinite is finite. -/
theorem isFinite_of_value {x : Float} (h : IsNumber x) {r : ℝ} (hr : value x = r) :
    x.isFinite = true := by
  rw [isFinite_eq]
  unfold value at hr
  cases hx : parts x with
  | notANumber => exact absurd hx h
  | infinity s =>
    rw [hx] at hr
    exact absurd hr (number_infinity_ne_coe s r)
  | zero s => rfl
  | finite s m e hm => rfl

/-- Rounding leaves the number of a double alone. -/
theorem nearest_value {x : Float} (h : IsNumber x) : nearest (value x) = value x := by
  by_cases hfin : x.isFinite = true
  · obtain ⟨r, hr, hd, hlt⟩ := exists_real hfin
    rw [hr, nearest_of_dyadic hd hlt]
  · rw [isFinite_eq] at hfin
    unfold value
    cases hx : parts x with
    | notANumber => exact absurd hx h
    | infinity s => cases s <;> rfl
    | zero s => exact absurd (by rw [hx]; rfl) hfin
    | finite s m e hm => exact absurd (by rw [hx]; rfl) hfin

theorem number_finite_ne_zero (s : Sign) {m : Nat} (e : Int) (h : 0 < m) :
    number (.finite s m e h) ≠ 0 := by
  rw [number_finite]
  refine EReal.coe_ne_zero.mpr (mul_ne_zero ?_ (by positivity))
  exact abs_ne_zero.mp (by rw [abs_signOf]; exact one_ne_zero)

/-- Zero has two signs, but nothing else is zero. -/
theorem parts_of_value_eq_zero {x : Float} (hx : IsNumber x) (h : value x = 0) :
    ∃ s, parts x = .zero s := by
  unfold value at h
  cases px : parts x with
  | notANumber => exact absurd px hx
  | infinity s =>
    rw [px] at h
    exact absurd h (number_infinity_ne_coe s 0)
  | zero s => exact ⟨s, rfl⟩
  | finite s m e hm =>
    rw [px] at h
    exact absurd h (number_finite_ne_zero s e hm)

/-- An infinity is written in one way only. -/
theorem parts_of_infinity {x : Float} {s : Sign} (h : value x = number (.infinity s)) :
    parts x = .infinity s := by
  unfold value at h
  cases px : parts x with
  | notANumber => rw [px] at h; exact absurd h.symm (number_infinity_ne_coe s 0)
  | infinity t =>
    rw [px] at h
    cases s <;> cases t
    · rfl
    · exact absurd h top_ne_bot
    · exact absurd h bot_ne_top
    · rfl
  | zero t => rw [px] at h; exact absurd h.symm (number_infinity_ne_coe s 0)
  | finite t m e hm => rw [px] at h; exact absurd h.symm (number_infinity_ne_coe s _)

theorem isNumber_of_infinity {x : Float} {s : Sign} (h : value x = number (.infinity s)) :
    IsNumber x := by
  rw [IsNumber, parts_of_infinity h]
  intro hparts
  cases hparts

/-- A number that is not finite is one of the two infinities. -/
theorem value_of_not_isFinite {x : Float} (hx : IsNumber x) (h : ¬ x.isFinite = true) :
    value x = ⊤ ∨ value x = ⊥ := by
  induction hv : value x with
  | bot => exact Or.inr rfl
  | top => exact Or.inl rfl
  | coe r => exact absurd (isFinite_of_value hx hv) h

/-! ## Comparing -/

/-- The larger exponent decides, because above the least exponent all the bits are there. -/
theorem Canonical.mul_lt {m₁ m₂ : Nat} {e₁ e₂ : Int} (h₁ : Canonical m₁ e₁)
    (h₂ : Canonical m₂ e₂) (h : e₁ < e₂) : (m₁ : ℝ) * 2 ^ e₁ < m₂ * 2 ^ e₂ := by
  have hle := h₁.le
  have hfull : (2 : ℝ) ^ 52 ≤ m₂ := by exact_mod_cast h₂.full.resolve_right (by omega)
  have hlt : (m₁ : ℝ) < 2 ^ 53 := by exact_mod_cast h₁.lt
  calc (m₁ : ℝ) * 2 ^ e₁ < 2 ^ 53 * 2 ^ e₁ := by gcongr
    _ = 2 ^ 52 * 2 ^ (e₁ + 1) := by rw [zpow_add_one₀ two_ne_zero]; ring
    _ ≤ m₂ * 2 ^ e₂ := by gcongr; norm_num; omega

theorem compare_then_eq {m₁ m₂ : Nat} {e₁ e₂ : Int} (h₁ : Canonical m₁ e₁)
    (h₂ : Canonical m₂ e₂) :
    (compare e₁ e₂).then (compare m₁ m₂) = cmp ((m₁ : ℝ) * 2 ^ e₁) (m₂ * 2 ^ e₂) := by
  rcases lt_trichotomy e₁ e₂ with h | rfl | h
  · rw [compare_lt_iff_lt.mpr h, (cmp_eq_lt_iff _ _).mpr (h₁.mul_lt h₂ h)]
    rfl
  · rw [compare_eq_iff_eq.mpr rfl, cmp_mul_pos_right (by positivity),
      Nat.strictMono_cast.cmp_map_eq, cmp_eq_compare]
    rfl
  · rw [compare_gt_iff_gt.mpr h, (cmp_eq_gt_iff _ _).mpr (h₂.mul_lt h₁ h)]
    rfl

theorem number_positive {m : Nat} (e : Int) (h : 0 < m) :
    0 < number (.finite .positive m e h) := by
  rw [number_finite, signOf, one_mul]
  refine EReal.coe_pos.mpr ?_
  positivity

theorem number_negative {m : Nat} (e : Int) (h : 0 < m) :
    number (.finite .negative m e h) < 0 := by
  rw [number_finite, signOf, neg_one_mul]
  refine EReal.coe_neg'.mpr (neg_lt_zero.mpr ?_)
  positivity

theorem number_lt_top (s : Sign) {m : Nat} (e : Int) (h : 0 < m) :
    number (.finite s m e h) < ⊤ := EReal.coe_lt_top _

theorem bot_lt_number (s : Sign) {m : Nat} (e : Int) (h : 0 < m) :
    ⊥ < number (.finite s m e h) := EReal.bot_lt_coe _

theorem lt_eq_cmp {a b : EReal} (h : a < b) : some .lt = some (cmp a b) := by
  rw [(cmp_eq_lt_iff a b).mpr h]

theorem gt_eq_cmp {a b : EReal} (h : b < a) : some .gt = some (cmp a b) := by
  rw [(cmp_eq_gt_iff a b).mpr h]

theorem eq_eq_cmp (a : EReal) : some .eq = some (cmp a a) := by
  rw [cmp_self_eq_eq]

/-- **Doubles are compared as the numbers they stand for.** -/
theorem compare_parts {x y : Float} (hx : IsNumber x) (hy : IsNumber y) :
    (parts x).compare (parts y) = some (cmp (value x) (value y)) := by
  unfold value
  cases px : parts x with
  | notANumber => exact absurd px hx
  | infinity s =>
    cases py : parts y with
    | notANumber => exact absurd py hy
    | infinity t =>
      cases s <;> cases t
      · exact eq_eq_cmp ⊥
      · exact lt_eq_cmp bot_lt_top
      · exact gt_eq_cmp bot_lt_top
      · exact eq_eq_cmp ⊤
    | zero t =>
      cases s with
      | positive => exact gt_eq_cmp EReal.zero_lt_top
      | negative => exact lt_eq_cmp EReal.bot_lt_zero
    | finite t m e h =>
      cases s with
      | positive => exact gt_eq_cmp (number_lt_top t e h)
      | negative => exact lt_eq_cmp (bot_lt_number t e h)
  | zero s =>
    cases py : parts y with
    | notANumber => exact absurd py hy
    | infinity t =>
      cases t with
      | positive => exact lt_eq_cmp EReal.zero_lt_top
      | negative => exact gt_eq_cmp EReal.bot_lt_zero
    | zero t => exact eq_eq_cmp 0
    | finite t m e h =>
      cases t with
      | positive => exact lt_eq_cmp (number_positive e h)
      | negative => exact gt_eq_cmp (number_negative e h)
  | finite s m e h =>
    have hc := canonical_of_parts px
    cases py : parts y with
    | notANumber => exact absurd py hy
    | infinity t =>
      cases t with
      | positive => exact lt_eq_cmp (number_lt_top s e h)
      | negative => exact gt_eq_cmp (bot_lt_number s e h)
    | zero t =>
      cases s with
      | positive => exact gt_eq_cmp (number_positive e h)
      | negative => exact lt_eq_cmp (number_negative e h)
    | finite t m' e' h' =>
      have hc' := canonical_of_parts py
      have hlex := compare_then_eq hc hc'
      cases s <;> cases t
      · refine congrArg some ?_
        rw [hlex, cmp_swap, number_finite, number_finite, EReal.coe_strictMono.cmp_map_eq, signOf,
          cmp_mul_neg_left (by norm_num)]
      · exact lt_eq_cmp ((number_negative e h).trans (number_positive e' h'))
      · exact gt_eq_cmp ((number_negative e' h').trans (number_positive e h))
      · refine congrArg some ?_
        rw [hlex, number_finite, number_finite, EReal.coe_strictMono.cmp_map_eq, signOf, one_mul, one_mul]

theorem isNumber_of_compare {x y : Float} (h : (parts x).compare (parts y) ≠ none) :
    IsNumber x ∧ IsNumber y := by
  refine ⟨fun hx => h ?_, fun hy => h ?_⟩
  · rw [hx]
    rfl
  · rw [hy]
    cases parts x <;> rfl

theorem lt_iff_compare {x y : Float} : x < y ↔ (parts x).compare (parts y) = some .lt := by
  show (decide ((parts x).lt (parts y) = true)) = true ↔ _
  rw [decide_eq_true_iff]
  unfold Float.Model.UnpackedFloat.lt
  exact beq_iff_eq

theorem lt_iff {x y : Float} : x < y ↔ IsNumber x ∧ IsNumber y ∧ value x < value y := by
  rw [lt_iff_compare]
  constructor
  · intro h
    obtain ⟨hx, hy⟩ := isNumber_of_compare (by rw [h]; exact Option.some_ne_none _)
    rw [compare_parts hx hy] at h
    exact ⟨hx, hy, (cmp_eq_lt_iff _ _).mp (Option.some.inj h)⟩
  · rintro ⟨hx, hy, h⟩
    rw [compare_parts hx hy, (cmp_eq_lt_iff _ _).mpr h]

theorem le_iff {x y : Float} : x ≤ y ↔ IsNumber x ∧ IsNumber y ∧ value x ≤ value y := by
  have hle : x ≤ y ↔ ((parts x).compare (parts y)).any (·.isLE) = true := by
    show (decide ((parts x).le (parts y) = true)) = true ↔ _
    rw [decide_eq_true_iff]
    rfl
  rw [hle]
  constructor
  · intro h
    obtain ⟨hx, hy⟩ := isNumber_of_compare (x := x) (y := y) (by
      rintro h0
      rw [h0] at h
      cases h)
    rw [compare_parts hx hy] at h
    refine ⟨hx, hy, not_lt.mp fun hlt => ?_⟩
    rw [(cmp_eq_gt_iff _ _).mpr hlt] at h
    cases h
  · rintro ⟨hx, hy, h⟩
    rw [compare_parts hx hy]
    rcases h.lt_or_eq with hlt | heq
    · rw [(cmp_eq_lt_iff _ _).mpr hlt]
      rfl
    · rw [(cmp_eq_eq_iff _ _).mpr heq]
      rfl

end ScaraArm.Binary64
