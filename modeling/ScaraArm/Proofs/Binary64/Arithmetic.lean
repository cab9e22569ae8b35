import Mathlib
import ScaraArm.Proofs.Binary64.Value

/-!
# Sums, differences and products of doubles

Each operation computes the exact result and rounds it once. So whenever a sum, a
difference or a product of doubles is a number at all, it is the double nearest to the sum,
difference or product of the numbers. When it is a number is said beside: the operands must
be numbers, and infinities must not cancel or meet a zero.
-/

namespace ScaraArm.Binary64

open Float.Model (Format totalExponent)
open Float.Model.UnpackedFloat

/-! ## Packing a result -/

/-- The double that is packed from `u` is the number nearest to `w`. -/
def Rounds (u : Parts) (w : EReal) : Prop :=
  IsNumber (.ofModel (.pack u)) ∧ value (.ofModel (.pack u)) = nearest w

theorem rounds_of_parts {u u' : Parts} {w : EReal}
    (h : parts (.ofModel (.pack u)) = u') (hu : u' ≠ .notANumber) (hw : number u' = nearest w) :
    Rounds u w := by
  subst h
  exact ⟨hu, hw⟩

theorem rounds_zero (s : Sign) : Rounds (.zero s) 0 := by
  have hparts : parts (.ofModel (.pack (.zero s))) = .zero s := by cases s <;> rfl
  refine rounds_of_parts hparts nofun ?_
  rw [← EReal.coe_zero, nearest_of_abs_lt (by simp), snap_zero]
  rfl

theorem rounds_infinity (s : Sign) : Rounds (.infinity s) (number (.infinity s)) := by
  refine rounds_of_parts (parts_pack_infinity s) nofun ?_
  cases s <;> rfl

/-- What has the shape of a double is packed as the double nearest to it. -/
theorem rounds_finite (s : Sign) {m : Nat} {e : Int} (h : 0 < m) (hc : Canonical m e) :
    Rounds (.finite s m e h) (number (.finite s m e h)) := by
  have hparts := parts_pack (s := s) h hc
  have hd := dyadic_signOf_mul s hc
  have habs : |signOf s * (m * 2 ^ e)| = m * 2 ^ e := by
    rw [abs_mul, abs_signOf, one_mul, abs_of_nonneg (by positivity)]
  by_cases he : e < 972
  · rw [if_pos he] at hparts
    refine rounds_of_parts hparts nofun ?_
    rw [number_finite, nearest_of_dyadic hd (habs.trans_lt (hc.mul_lt_two_pow he))]
  · rw [if_neg he] at hparts
    refine rounds_of_parts hparts nofun ?_
    have hlarge := hc.two_pow_le_mul (not_lt.mp he)
    rw [number_finite, nearest_coe, snap_of_dyadic hd]
    cases s with
    | positive =>
      rw [signOf, one_mul, if_pos hlarge]
      rfl
    | negative =>
      have hneg : ¬ (2 : ℝ) ^ 1024 ≤ -(m * 2 ^ e) := by
        refine (lt_of_le_of_lt (b := 0) (neg_nonpos.mpr ?_) ?_).not_ge <;> positivity
      rw [signOf, neg_one_mul, if_neg hneg, if_pos (neg_le_neg hlarge)]
      rfl

/-! ## Rounding a result -/

theorem nearest_congr {r s : ℝ} (h : snap r = snap s) : nearest r = nearest s := by
  rw [nearest_coe, nearest_coe, h]

/-- **A located number is rounded to the double nearest to it.** -/
theorem rounds_roundWithAccuracy (s : Sign) {v : ℝ} {m : Nat} {e : Int} {a : Accuracy}
    (hv : 0 < v) (h : Locates (v / 2 ^ e) (.ofMantissaAndAccuracy m a))
    (hbits : 52 ≤ m.log2 ∨ e ≤ -1074) :
    Rounds (roundWithAccuracy Format.binary64 s m e a) ((signOf s * v : ℝ)) := by
  rcases roundWithAccuracy_eq s hv h hbits with ⟨h0, heq⟩ | ⟨m', e', h', heq, hc, hv'⟩
  · obtain ⟨hnumber, hvalue⟩ := rounds_zero s
    rw [heq]
    refine ⟨hnumber, hvalue.trans (nearest_congr ?_)⟩
    rw [snap_signOf_mul, h0, mul_zero, snap_zero]
  · obtain ⟨hnumber, hvalue⟩ := rounds_finite s h' hc
    rw [heq]
    rw [number_finite] at hvalue
    refine ⟨hnumber, hvalue.trans (nearest_congr ?_)⟩
    rw [snap_of_dyadic (dyadic_signOf_mul s hc), snap_signOf_mul, hv']

/-- A number that is given exactly is first given bits enough. -/
theorem rounds_round (s : Sign) {m : Nat} (e : Int) (h : 0 < m) :
    Rounds (Float.Model.UnpackedFloat.round Format.binary64 s m e) ((signOf s * (m * 2 ^ e) : ℝ)) := by
  unfold Float.Model.UnpackedFloat.round decreaseExponent
  dsimp only
  generalize hk : (e - Format.targetExponent Format.binary64 (totalExponent m e)).toNat = k
  have hbits : 52 ≤ (m <<< k).log2 ∨ e - k ≤ -1074 := by
    rw [log2_shiftLeft h]
    simp only [Format.targetExponent, totalExponent, Format.minExponent, Format.mantissaBits] at hk
    omega
  have hpow : (m * 2 ^ e : ℝ) = (m <<< k : ℕ) * 2 ^ (e - k) := by
    rw [Nat.shiftLeft_eq, zpow_sub₀ two_ne_zero, zpow_natCast]
    push_cast
    field_simp
  refine rounds_roundWithAccuracy s (by positivity) ?_ hbits
  rw [hpow, mul_div_cancel_right₀ _ (by positivity)]
  exact locates_exact _

theorem rounds_normalize (m e : Int) :
    Rounds (Float.Model.UnpackedFloat.normalize Format.binary64 m e .positive) ((m * 2 ^ e : ℝ)) := by
  unfold Float.Model.UnpackedFloat.normalize
  rcases lt_trichotomy m 0 with h | rfl | h
  · rw [compare_lt_iff_lt.mpr h]
    have := rounds_round .negative (m := (-m).toNat) e (by omega)
    have hcast : (((-m).toNat : ℕ) : ℝ) = -m := by
      exact_mod_cast Int.toNat_of_nonneg (show 0 ≤ -m by omega)
    rwa [hcast, signOf, neg_one_mul, neg_mul, neg_neg] at this
  · rw [compare_eq_iff_eq.mpr rfl, Int.cast_zero, zero_mul]
    exact rounds_zero .positive
  · rw [compare_gt_iff_gt.mpr h]
    have := rounds_round .positive (m := m.toNat) e (by omega)
    have hcast : ((m.toNat : ℕ) : ℝ) = m := by
      exact_mod_cast Int.toNat_of_nonneg h.le
    rwa [hcast, signOf, one_mul] at this

/-! ## Sums and differences -/

theorem parts_add (x y : Float) :
    parts (x + y) = parts (.ofModel (.pack (add Format.binary64 (parts x) (parts y)))) := rfl

theorem parts_pack_notANumber : parts (.ofModel (.pack .notANumber)) = .notANumber := rfl

/-- A sum of finite parts is their exact sum, rounded. -/
theorem rounds_add_finite (s₁ s₂ : Sign) {m₁ m₂ : Nat} {e₁ e₂ : Int} (h₁ : 0 < m₁) (h₂ : 0 < m₂) :
    Rounds (add Format.binary64 (.finite s₁ m₁ e₁ h₁) (.finite s₂ m₂ e₂ h₂))
      (number (.finite s₁ m₁ e₁ h₁) + number (.finite s₂ m₂ e₂ h₂)) := by
  have halign : ∀ (m : Nat) (e : Int), min e₁ e₂ ≤ e →
      ((m <<< (e - min e₁ e₂).toNat : ℕ) : ℝ) * 2 ^ min e₁ e₂ = m * 2 ^ e := by
    intro m e he
    rw [Nat.shiftLeft_eq, zpow_grid_le he]
    push_cast
    ring
  have := rounds_normalize (s₁.apply (m₁ <<< (e₁ - min e₁ e₂).toNat : ℕ)
    + s₂.apply (m₂ <<< (e₂ - min e₁ e₂).toNat : ℕ)) (min e₁ e₂)
  rw [Int.cast_add, apply_eq, apply_eq, add_mul, mul_assoc, mul_assoc, Int.cast_natCast,
    Int.cast_natCast, halign m₁ e₁ (min_le_left _ _), halign m₂ e₂ (min_le_right _ _),
    EReal.coe_add] at this
  exact this

theorem rounds_add {x y : Float} (h : IsNumber (x + y)) :
    Rounds (add Format.binary64 (parts x) (parts y)) (value x + value y) := by
  unfold value
  rw [IsNumber, parts_add] at h
  cases px : parts x with
  | notANumber => rw [px] at h; exact absurd parts_pack_notANumber h
  | infinity s =>
    cases py : parts y with
    | notANumber => rw [px, py] at h; exact absurd parts_pack_notANumber h
    | infinity t =>
      rw [px, py] at h
      cases s <;> cases t
      · exact rounds_infinity .negative
      · exact absurd parts_pack_notANumber h
      · exact absurd parts_pack_notANumber h
      · exact rounds_infinity .positive
    | zero t =>
      rw [show number (.zero t) = 0 from rfl, add_zero]
      exact rounds_infinity s
    | finite t m e hm =>
      cases s
      · exact rounds_infinity .negative
      · exact rounds_infinity .positive
  | zero s =>
    cases py : parts y with
    | notANumber => rw [px, py] at h; exact absurd parts_pack_notANumber h
    | infinity t =>
      rw [show number (.zero s) = 0 from rfl, zero_add]
      exact rounds_infinity t
    | zero t =>
      rw [show number (.zero s) = 0 from rfl, zero_add]
      cases s <;> cases t <;> exact rounds_zero _
    | finite t m e hm =>
      rw [show number (.zero s) = 0 from rfl, zero_add]
      exact rounds_finite t hm (canonical_of_parts py)
  | finite s m e hm =>
    cases py : parts y with
    | notANumber => rw [px, py] at h; exact absurd parts_pack_notANumber h
    | infinity t =>
      cases t
      · exact rounds_infinity .negative
      · exact rounds_infinity .positive
    | zero t =>
      rw [show number (.zero t) = 0 from rfl, add_zero]
      exact rounds_finite s hm (canonical_of_parts px)
    | finite t m' e' hm' => exact rounds_add_finite s t hm hm'

/-- **A sum that is a number is the double nearest to the exact sum.** -/
theorem value_add {x y : Float} (h : IsNumber (x + y)) :
    value (x + y) = nearest (value x + value y) := (rounds_add h).2

theorem isNumber_of_add {x y : Float} (h : IsNumber (x + y)) : IsNumber x ∧ IsNumber y := by
  rw [IsNumber, parts_add] at h
  refine ⟨fun hx => h ?_, fun hy => h ?_⟩
  · rw [hx]
    exact parts_pack_notANumber
  · rw [hy]
    cases parts x <;> exact parts_pack_notANumber

/-- Adding a finite double loses no number. -/
theorem isNumber_add {x y : Float} (hx : IsNumber x) (hy : y.isFinite = true) :
    IsNumber (x + y) := by
  rw [isFinite_eq] at hy
  rw [IsNumber, parts_add]
  cases px : parts x with
  | notANumber => exact absurd px hx
  | infinity s =>
    cases py : parts y with
    | notANumber => rw [py] at hy; cases hy
    | infinity t => rw [py] at hy; cases hy
    | zero t => exact (rounds_infinity s).1
    | finite t m e hm => exact (rounds_infinity s).1
  | zero s =>
    cases py : parts y with
    | notANumber => rw [py] at hy; cases hy
    | infinity t => rw [py] at hy; cases hy
    | zero t => cases s <;> cases t <;> exact (rounds_zero _).1
    | finite t m e hm => exact (rounds_finite t hm (canonical_of_parts py)).1
  | finite s m e hm =>
    cases py : parts y with
    | notANumber => rw [py] at hy; cases hy
    | infinity t => rw [py] at hy; cases hy
    | zero t => exact (rounds_finite s hm (canonical_of_parts px)).1
    | finite t m' e' hm' => exact (rounds_add_finite s t hm hm').1

/-- Nor does adding to one. -/
theorem isNumber_add_of_isFinite {x y : Float} (hx : x.isFinite = true) (hy : IsNumber y) :
    IsNumber (x + y) := by
  have hnumber := isNumber_of_isFinite hx
  cases py : parts y with
  | notANumber => exact absurd py hy
  | infinity t =>
    rw [isFinite_eq] at hx
    rw [IsNumber, parts_add, py]
    cases px : parts x with
    | notANumber => exact absurd px hnumber
    | infinity s => rw [px] at hx; cases hx
    | zero s => exact (rounds_infinity t).1
    | finite s m e hm => exact (rounds_infinity t).1
  | zero t => exact isNumber_add hnumber (by rw [isFinite_eq, py]; rfl)
  | finite t m e hm => exact isNumber_add hnumber (by rw [isFinite_eq, py]; rfl)

theorem parts_neg (x : Float) : parts (-x) = neg (parts x) := by
  show parts (.ofModel (.pack (neg (parts x)))) = _
  cases hx : parts x with
  | notANumber => rfl
  | infinity s => exact parts_pack_infinity (-s)
  | zero s => cases s <;> rfl
  | finite s m e h =>
    show parts (.ofModel (.pack (.finite (-s) m e h))) = _
    rw [parts_pack h (canonical_of_parts hx), if_pos (lt_of_parts hx)]
    rfl

theorem value_neg (x : Float) : value (-x) = -value x := by
  unfold value
  rw [parts_neg]
  cases parts x with
  | notANumber => exact neg_zero.symm
  | infinity s => cases s <;> rfl
  | zero s => exact neg_zero.symm
  | finite s m e h =>
    show ((signOf (-s) * (m * 2 ^ e) : ℝ) : EReal) = _
    rw [signOf_neg, neg_mul, EReal.coe_neg]
    rfl

theorem isFinite_neg (x : Float) : (-x).isFinite = x.isFinite := by
  rw [isFinite_eq, isFinite_eq, parts_neg]
  cases parts x <;> rfl

theorem isNumber_neg {x : Float} : IsNumber (-x) ↔ IsNumber x := by
  unfold IsNumber
  rw [parts_neg]
  cases parts x <;> simp [neg]

theorem sub_parts (u v : Parts) :
    sub Format.binary64 u v = add Format.binary64 u (neg v) := by
  cases u with
  | notANumber => rfl
  | infinity s => cases v <;> rfl
  | zero s => cases v <;> rfl
  | finite s m e h =>
    cases v with
    | notANumber => rfl
    | infinity t => rfl
    | zero t => rfl
    | finite t m' e' h' =>
      cases t with
      | positive => rfl
      | negative =>
        unfold add sub neg
        simp only [Sign.apply, sub_neg_eq_add]

/-- A difference is a sum. -/
theorem sub_eq (x y : Float) : x - y = x + -y := by
  show Float.ofModel (.pack (sub Format.binary64 (parts x) (parts y)))
    = .ofModel (.pack (add Format.binary64 (parts x) (parts (-y))))
  rw [parts_neg, sub_parts]

theorem value_sub {x y : Float} (h : IsNumber (x - y)) :
    value (x - y) = nearest (value x - value y) := by
  rw [sub_eq] at h ⊢
  rw [value_add h, value_neg, sub_eq_add_neg]

theorem isNumber_sub {x y : Float} (hx : IsNumber x) (hy : y.isFinite = true) :
    IsNumber (x - y) := by
  rw [sub_eq]
  exact isNumber_add hx (by rwa [isFinite_neg])

theorem value_sub_self {x y : Float} (hx : IsNumber x) (hy : y.isFinite = true)
    (h : value x = value y) : value (x - y) = 0 := by
  obtain ⟨r, hr, -⟩ := exists_real hy
  rw [value_sub (isNumber_sub hx hy), h, hr, ← EReal.coe_sub, sub_self, EReal.coe_zero,
    nearest_zero]

theorem value_sub_zero {x y : Float} (hx : IsNumber x) (hy : y.isFinite = true)
    (h : value y = 0) : value (x - y) = value x := by
  rw [value_sub (isNumber_sub hx hy), h, sub_zero, nearest_value hx]

/-! ## Products and quotients -/

theorem parts_mul (x y : Float) :
    parts (x * y) = parts (.ofModel (.pack (mul Format.binary64 (parts x) (parts y)))) := rfl

/-- A product of finite parts with bits enough is their exact product, rounded. -/
theorem rounds_mul_of_bits (s₁ s₂ : Sign) {m₁ m₂ : Nat} {e₁ e₂ : Int} (h₁ : 0 < m₁) (h₂ : 0 < m₂)
    (hbits : 52 ≤ (m₁ * m₂).log2 ∨ e₁ + e₂ ≤ -1074) :
    Rounds (mul Format.binary64 (.finite s₁ m₁ e₁ h₁) (.finite s₂ m₂ e₂ h₂))
      ((signOf (s₁ * s₂) * (m₁ * 2 ^ e₁ * (m₂ * 2 ^ e₂)) : ℝ)) := by
  have hexact : (m₁ * 2 ^ e₁ * (m₂ * 2 ^ e₂) : ℝ) = (m₁ * m₂ : ℕ) * 2 ^ (e₁ + e₂) := by
    rw [zpow_add₀ two_ne_zero]
    push_cast
    ring
  refine rounds_roundWithAccuracy (s₁ * s₂) (by positivity) ?_ hbits
  rw [hexact, mul_div_cancel_right₀ _ (by positivity)]
  exact locates_exact _

/-- The parts of two doubles have bits enough. -/
theorem rounds_mul_finite {x y : Float} {s₁ s₂ : Sign} {m₁ m₂ : Nat} {e₁ e₂ : Int} {h₁ : 0 < m₁}
    {h₂ : 0 < m₂} (hx : parts x = .finite s₁ m₁ e₁ h₁) (hy : parts y = .finite s₂ m₂ e₂ h₂) :
    Rounds (mul Format.binary64 (.finite s₁ m₁ e₁ h₁) (.finite s₂ m₂ e₂ h₂))
      (number (.finite s₁ m₁ e₁ h₁) * number (.finite s₂ m₂ e₂ h₂)) := by
  have hc₁ := canonical_of_parts hx
  have hc₂ := canonical_of_parts hy
  -- a factor with all its bits leaves bits enough, and two subnormal factors are tiny
  have hbits : 52 ≤ (m₁ * m₂).log2 ∨ e₁ + e₂ ≤ -1074 := by
    by_cases hmin : e₁ = -1074 ∧ e₂ = -1074
    · exact Or.inr (by omega)
    · left
      refine (Nat.le_log2 (Nat.mul_pos h₁ h₂).ne').mpr ?_
      rcases hc₁.full with hfull | he₁
      · exact hfull.trans (Nat.le_mul_of_pos_right _ h₂)
      · exact (hc₂.full.resolve_right fun he₂ => hmin ⟨he₁, he₂⟩).trans
          (Nat.le_mul_of_pos_left _ h₁)
  rw [number_finite, number_finite, ← EReal.coe_mul, mul_mul_mul_comm, ← signOf_mul]
  exact rounds_mul_of_bits s₁ s₂ h₁ h₂ hbits

/-- An infinite factor makes a product infinite unless the other one is zero. -/
theorem number_infinity_mul (s t : Sign) {m : Nat} (e : Int) (h : 0 < m) :
    number (.infinity s) * number (.finite t m e h) = number (.infinity (s * t)) := by
  cases s <;> cases t
  · exact EReal.bot_mul_of_neg (number_negative e h)
  · exact EReal.bot_mul_of_pos (number_positive e h)
  · exact EReal.top_mul_of_neg (number_negative e h)
  · exact EReal.top_mul_of_pos (number_positive e h)

theorem rounds_mul {x y : Float} (h : IsNumber (x * y)) :
    Rounds (mul Format.binary64 (parts x) (parts y)) (value x * value y) := by
  unfold value
  rw [IsNumber, parts_mul] at h
  cases px : parts x with
  | notANumber => rw [px] at h; exact absurd parts_pack_notANumber h
  | infinity s =>
    cases py : parts y with
    | notANumber => rw [px, py] at h; exact absurd parts_pack_notANumber h
    | infinity t =>
      have : number (.infinity s) * number (.infinity t) = number (.infinity (s * t)) := by
        cases s <;> cases t
        · exact EReal.bot_mul_bot
        · exact EReal.bot_mul_top
        · exact EReal.top_mul_bot
        · exact EReal.top_mul_top
      rw [this]
      exact rounds_infinity (s * t)
    | zero t => rw [px, py] at h; exact absurd parts_pack_notANumber h
    | finite t m e hm =>
      rw [number_infinity_mul s t e hm]
      exact rounds_infinity (s * t)
  | zero s =>
    cases py : parts y with
    | notANumber => rw [px, py] at h; exact absurd parts_pack_notANumber h
    | infinity t => rw [px, py] at h; exact absurd parts_pack_notANumber h
    | zero t =>
      rw [show number (.zero s) = 0 from rfl, zero_mul]
      exact rounds_zero (s * t)
    | finite t m e hm =>
      rw [show number (.zero s) = 0 from rfl, zero_mul]
      exact rounds_zero (s * t)
  | finite s m e hm =>
    cases py : parts y with
    | notANumber => rw [px, py] at h; exact absurd parts_pack_notANumber h
    | infinity t =>
      rw [mul_comm, number_infinity_mul t s e hm]
      cases s <;> cases t <;> exact rounds_infinity _
    | zero t =>
      rw [show number (.zero t) = 0 from rfl, mul_zero]
      exact rounds_zero (s * t)
    | finite t m' e' hm' => exact rounds_mul_finite px py

/-- **A product that is a number is the double nearest to the exact product.** -/
theorem value_mul {x y : Float} (h : IsNumber (x * y)) :
    value (x * y) = nearest (value x * value y) := (rounds_mul h).2

theorem isNumber_of_mul {x y : Float} (h : IsNumber (x * y)) : IsNumber x ∧ IsNumber y := by
  rw [IsNumber, parts_mul] at h
  refine ⟨fun hx => h ?_, fun hy => h ?_⟩
  · rw [hx]
    exact parts_pack_notANumber
  · rw [hy]
    cases parts x <;> exact parts_pack_notANumber

/-- Finite factors have a product. -/
theorem isNumber_mul {x y : Float} (hx : x.isFinite = true) (hy : y.isFinite = true) :
    IsNumber (x * y) := by
  rw [isFinite_eq] at hx hy
  rw [IsNumber, parts_mul]
  cases px : parts x with
  | notANumber => rw [px] at hx; cases hx
  | infinity s => rw [px] at hx; cases hx
  | zero s =>
    cases py : parts y with
    | notANumber => rw [py] at hy; cases hy
    | infinity t => rw [py] at hy; cases hy
    | zero t => exact (rounds_zero (s * t)).1
    | finite t m e hm => exact (rounds_zero (s * t)).1
  | finite s m e hm =>
    cases py : parts y with
    | notANumber => rw [py] at hy; cases hy
    | infinity t => rw [py] at hy; cases hy
    | zero t => exact (rounds_zero (s * t)).1
    | finite t m' e' hm' => exact (rounds_mul_finite px py).1

/-- A finite factor that is not zero has a product with every number. -/
theorem isNumber_mul_of_ne_zero {x y : Float} (hx : IsNumber x) (hy : y.isFinite = true)
    (h0 : value y ≠ 0) : IsNumber (x * y) := by
  cases px : parts x with
  | notANumber => exact absurd px hx
  | infinity s =>
    unfold value at h0
    rw [isFinite_eq] at hy
    rw [IsNumber, parts_mul, px]
    cases py : parts y with
    | notANumber => rw [py] at hy; cases hy
    | infinity t => rw [py] at hy; cases hy
    | zero t => rw [py] at h0; exact absurd rfl h0
    | finite t m e hm => exact (rounds_infinity (s * t)).1
  | zero s => exact isNumber_mul (by rw [isFinite_eq, px]; rfl) hy
  | finite s m e hm => exact isNumber_mul (by rw [isFinite_eq, px]; rfl) hy

/-- Every number has a square. -/
theorem isNumber_mul_self {x : Float} (hx : IsNumber x) : IsNumber (x * x) := by
  cases px : parts x with
  | notANumber => exact absurd px hx
  | infinity s =>
    rw [IsNumber, parts_mul, px]
    exact (rounds_infinity (s * s)).1
  | zero s =>
    rw [IsNumber, parts_mul, px]
    exact (rounds_zero (s * s)).1
  | finite s m e hm =>
    rw [IsNumber, parts_mul, px]
    exact (rounds_mul_finite px px).1

theorem parts_div (x y : Float) :
    parts (x / y) = parts (.ofModel (.pack (div Format.binary64 (parts x) (parts y)))) := rfl

/-- What is left of a division locates the quotient. -/
theorem locates_fraction {q num den : Nat} (h : num < den) :
    Locates (q + num / den) (.ofMantissaAndAccuracy q (accuracyOfFraction num den)) := by
  have hden : (0 : ℝ) < den := by exact_mod_cast (Nat.zero_le num).trans_lt h
  unfold accuracyOfFraction
  split_ifs with h0
  · have : (q : ℝ) + (num : ℝ) / den = q := by rw [h0]; simp
    rw [this]
    exact locates_exact q
  · have hpos : (0 : ℝ) < num := by exact_mod_cast Nat.pos_of_ne_zero h0
    have hlt : (num : ℝ) < den := by exact_mod_cast h
    rcases lt_trichotomy (2 * num) den with hhalf | hhalf | hhalf
    · rw [compare_lt_iff_lt.mpr hhalf]
      have hhalf : (2 : ℝ) * num < den := by exact_mod_cast hhalf
      refine ⟨2 * num / den, by positivity, by rwa [div_lt_one hden], ?_, ?_⟩
      · exact iff_of_false Bool.noConfusion (by positivity)
      · simp only [ExtendedMantissa.ofMantissaAndAccuracy, Bool.toNat_false, Nat.cast_zero]
        ring
    · rw [compare_eq_iff_eq.mpr hhalf]
      refine ⟨0, le_rfl, one_pos, iff_of_true rfl rfl, ?_⟩
      rw [← hhalf]
      simp only [ExtendedMantissa.ofMantissaAndAccuracy, Bool.toNat_true]
      push_cast
      rw [add_zero, mul_comm, ← div_div, div_self hpos.ne']
    · rw [compare_gt_iff_gt.mpr hhalf]
      have hhalf : (den : ℝ) < 2 * num := by exact_mod_cast hhalf
      have hgt : 1 < 2 * num / (den : ℝ) := by rwa [one_lt_div hden]
      have hle : 2 * num / (den : ℝ) < 2 := by
        rw [div_lt_iff₀ hden]
        linarith
      refine ⟨2 * num / den - 1, by linarith, by linarith, ?_, ?_⟩
      · exact iff_of_false Bool.noConfusion (by linarith)
      · simp only [ExtendedMantissa.ofMantissaAndAccuracy, Bool.toNat_true]
        push_cast
        ring

/-- Dividing lowers the leading bit by at most one place more than the divisor has. -/
theorem pow_le_div {m n j : Nat} (h : 0 < m) (hn : 0 < n) (hj : j + n.log2 + 1 ≤ m.log2) :
    2 ^ j ≤ m / n := by
  rw [Nat.le_div_iff_mul_le hn]
  calc 2 ^ j * n ≤ 2 ^ j * 2 ^ (n.log2 + 1) := Nat.mul_le_mul_left _ Nat.lt_log2_self.le
    _ = 2 ^ (j + n.log2 + 1) := by rw [← Nat.pow_add, Nat.add_assoc]
    _ ≤ 2 ^ m.log2 := Nat.pow_le_pow_right (by omega) hj
    _ ≤ m := Nat.log2_self_le h.ne'

/-- A quotient of finite parts is their exact quotient, rounded. -/
theorem rounds_div_finite (s₁ s₂ : Sign) {m₁ m₂ : Nat} {e₁ e₂ : Int} (h₁ : 0 < m₁) (h₂ : 0 < m₂) :
    Rounds (div Format.binary64 (.finite s₁ m₁ e₁ h₁) (.finite s₂ m₂ e₂ h₂))
      ((signOf (s₁ / s₂) * (m₁ * 2 ^ e₁ / (m₂ * 2 ^ e₂)) : ℝ)) := by
  unfold div divCore
  dsimp only
  generalize ht : min (e₁ - e₂) _ = t
  simp only [Format.targetExponent, totalExponent, Format.minExponent, Format.mantissaBits] at ht
  have hle : t ≤ e₁ - e₂ := by omega
  -- enough zeros are put behind the dividend to fill the quotient
  have hbits : 52 ≤ (m₁ <<< (e₁ - e₂ - t).toNat / m₂).log2 ∨ t ≤ -1074 := by
    by_cases hmin : t ≤ -1074
    · exact Or.inr hmin
    · left
      have hpos : 0 < m₁ <<< (e₁ - e₂ - t).toNat := by rw [Nat.shiftLeft_eq]; positivity
      have hlog := log2_shiftLeft h₁ (e₁ - e₂ - t).toNat
      have hdiv := pow_le_div (j := 52) hpos h₂ (by omega)
      exact (Nat.le_log2 (Nat.lt_of_lt_of_le (Nat.two_pow_pos _) hdiv).ne').mpr hdiv
  refine rounds_roundWithAccuracy (s₁ / s₂) (by positivity) ?_ hbits
  have hshift : (m₁ * 2 ^ e₁ / (m₂ * 2 ^ e₂) / 2 ^ t : ℝ)
      = (m₁ <<< (e₁ - e₂ - t).toNat : ℕ) / m₂ := by
    rw [Nat.shiftLeft_eq]
    push_cast
    rw [← zpow_natCast, Int.toNat_of_nonneg (by omega), zpow_sub₀ two_ne_zero,
      zpow_sub₀ two_ne_zero]
    field_simp
  have hquot : ((m₁ <<< (e₁ - e₂ - t).toNat : ℕ) : ℝ) / m₂
      = (m₁ <<< (e₁ - e₂ - t).toNat / m₂ : ℕ) + (m₁ <<< (e₁ - e₂ - t).toNat % m₂ : ℕ) / m₂ := by
    rw [div_eq_iff (by positivity), add_mul, div_mul_cancel₀ _ (by positivity)]
    exact_mod_cast (Nat.div_add_mod' _ _).symm
  rw [hshift, hquot]
  exact locates_fraction (Nat.mod_lt _ h₂)

/-- Dividing a number by a finite double that is not zero gives a number. -/
theorem isNumber_div {x y : Float} (hx : IsNumber x) (hy : y.isFinite = true)
    (h0 : value y ≠ 0) : IsNumber (x / y) := by
  rw [isFinite_eq] at hy
  unfold value at h0
  rw [IsNumber, parts_div]
  cases py : parts y with
  | notANumber => rw [py] at hy; cases hy
  | infinity t => rw [py] at hy; cases hy
  | zero t => rw [py] at h0; exact absurd rfl h0
  | finite t m e hm =>
    cases px : parts x with
    | notANumber => exact absurd px hx
    | infinity s => exact (rounds_infinity (s / t)).1
    | zero s => exact (rounds_zero (s / t)).1
    | finite s m' e' hm' => exact (rounds_div_finite s t hm' hm).1

/-- **The quotient of finite doubles is the double nearest to the exact quotient.** -/
theorem value_div {x y : Float} (hx : x.isFinite = true) (hy : y.isFinite = true)
    (h0 : value y ≠ 0) : value (x / y) = nearest (value x / value y) := by
  rw [isFinite_eq] at hx hy
  unfold value at h0 ⊢
  rw [parts_div]
  cases py : parts y with
  | notANumber => rw [py] at hy; cases hy
  | infinity t => rw [py] at hy; cases hy
  | zero t => rw [py] at h0; exact absurd rfl h0
  | finite t m e hm =>
    cases px : parts x with
    | notANumber => rw [px] at hx; cases hx
    | infinity s => rw [px] at hx; cases hx
    | zero s =>
      rw [show number (.zero s) = 0 from rfl, EReal.zero_div]
      exact (rounds_zero (s / t)).2
    | finite s m' e' hm' =>
      refine (rounds_div_finite s t hm' hm).2.trans ?_
      rw [number_finite, number_finite, ← EReal.coe_div, signOf_div, div_mul_div_comm]

/-- Dividing zero by zero gives no number. -/
theorem not_isNumber_div {x y : Float} (hx : value x = 0) (hy : value y = 0) :
    ¬ IsNumber (x / y) := by
  intro h
  rw [IsNumber, parts_div] at h
  by_cases hnx : IsNumber x
  · obtain ⟨s, hs⟩ := parts_of_value_eq_zero hnx hx
    by_cases hny : IsNumber y
    · obtain ⟨t, ht⟩ := parts_of_value_eq_zero hny hy
      rw [hs, ht] at h
      exact h parts_pack_notANumber
    · rw [hs, not_not.mp hny] at h
      exact h parts_pack_notANumber
  · rw [not_not.mp hnx] at h
    exact h parts_pack_notANumber

/-! ## Sums of squares -/

theorem mul_self_nonneg_of_isNumber {x : Float} (hx : IsNumber x) : 0 ≤ value (x * x) := by
  rw [value_mul (isNumber_mul_self hx)]
  refine nearest_nonneg ?_
  induction value x with
  | bot => exact le_top
  | top => exact le_top
  | coe r => exact_mod_cast mul_self_nonneg r

/-- The square of a number is infinite if the number is. -/
theorem value_mul_self_of_not_isFinite {x : Float} (hx : IsNumber x)
    (h : ¬ x.isFinite = true) : value (x * x) = ⊤ := by
  rw [value_mul (isNumber_mul_self hx)]
  rcases value_of_not_isFinite hx h with htop | hbot
  · rw [htop]
    rfl
  · rw [hbot]
    rfl

/-- A finite sum of squares has finite roots. -/
theorem isFinite_of_isFinite_sq {x y : Float} (h : (x * x + y * y).isFinite = true) :
    x.isFinite = true ∧ y.isFinite = true := by
  have hsum := isNumber_of_isFinite h
  obtain ⟨hsqx, hsqy⟩ := isNumber_of_add hsum
  have hx := (isNumber_of_mul hsqx).1
  have hy := (isNumber_of_mul hsqy).1
  obtain ⟨r, hr, -⟩ := exists_real h
  have hvalue := value_add hsum
  have hnonneg := mul_self_nonneg_of_isNumber hx
  have hnonneg' := mul_self_nonneg_of_isNumber hy
  constructor
  · by_contra hinf
    rw [value_mul_self_of_not_isFinite hx hinf,
      EReal.top_add_of_ne_bot (EReal.bot_lt_zero.trans_le hnonneg').ne', nearest_top] at hvalue
    exact EReal.coe_ne_top r (hr.symm.trans hvalue)
  · by_contra hinf
    rw [value_mul_self_of_not_isFinite hy hinf,
      EReal.add_top_of_ne_bot (EReal.bot_lt_zero.trans_le hnonneg).ne', nearest_top] at hvalue
    exact EReal.coe_ne_top r (hr.symm.trans hvalue)

end ScaraArm.Binary64
