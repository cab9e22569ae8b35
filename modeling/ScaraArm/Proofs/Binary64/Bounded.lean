import Mathlib
import ScaraArm.Proofs.Binary64.Arithmetic

/-!
# Doubles of bounded size

Bounds go through arithmetic as they do for real numbers, except that the bound of a result
is rounded as the result is. A bound that is a double stays as it is, a small whole number
above all. What stays below the largest double is finite, and so nothing that is computed
from it is undefined.
-/

namespace ScaraArm.Binary64

/-- A double that stands for a real number of at most the given size. -/
def Bounded (x : Float) (b : ℝ) : Prop := IsNumber x ∧ ∃ r : ℝ, value x = r ∧ |r| ≤ b

theorem Bounded.isFinite {x : Float} {b : ℝ} (h : Bounded x b) : x.isFinite = true := by
  obtain ⟨hx, r, hr, -⟩ := h
  exact isFinite_of_value hx hr

/-- What is rounded from a bounded number is bounded by the rounded bound. -/
theorem bounded_of_nearest {x : Float} {r b : ℝ} (hx : IsNumber x) (hr : value x = nearest r)
    (hle : |r| ≤ b) (hb : snap b < 2 ^ 1024) : Bounded x (snap b) := by
  have habs : |snap r| ≤ snap b := (abs_snap r).trans_le (snap_mono hle)
  exact ⟨hx, snap r, hr.trans (nearest_of_abs_lt (habs.trans_lt hb)), habs⟩

/-- A bound that is a double stays as it is. -/
theorem bounded_of_dyadic {x : Float} {r d : ℝ} (hx : IsNumber x) (hr : value x = nearest r)
    (hle : |r| ≤ d) (hd : Dyadic d) (hlt : d < 2 ^ 1024) : Bounded x d := by
  have hsnap := snap_of_dyadic hd
  exact hsnap ▸ bounded_of_nearest hx hr hle (hsnap.symm ▸ hlt)

theorem Bounded.add {x y : Float} {a b : ℝ} (hx : Bounded x a) (hy : Bounded y b)
    (hb : snap (a + b) < 2 ^ 1024) : Bounded (x + y) (snap (a + b)) := by
  have hsum := isNumber_add hx.1 hy.isFinite
  obtain ⟨-, r, hr, hra⟩ := hx
  obtain ⟨-, s, hs, hsb⟩ := hy
  refine bounded_of_nearest hsum (r := r + s) ?_ ((abs_add_le r s).trans (add_le_add hra hsb)) hb
  rw [value_add hsum, hr, hs, EReal.coe_add]

theorem Bounded.neg {x : Float} {a : ℝ} (hx : Bounded x a) : Bounded (-x) a := by
  obtain ⟨hnum, r, hr, hra⟩ := hx
  exact ⟨isNumber_neg.mpr hnum, -r, by rw [value_neg, hr, EReal.coe_neg], by rwa [abs_neg]⟩

theorem Bounded.mul {x y : Float} {a b : ℝ} (hx : Bounded x a) (hy : Bounded y b)
    (hb : snap (a * b) < 2 ^ 1024) : Bounded (x * y) (snap (a * b)) := by
  have hprod := isNumber_mul hx.isFinite hy.isFinite
  obtain ⟨-, r, hr, hra⟩ := hx
  obtain ⟨-, s, hs, hsb⟩ := hy
  refine bounded_of_nearest hprod (r := r * s) ?_ ?_ hb
  · rw [value_mul hprod, hr, hs, EReal.coe_mul]
  · rw [abs_mul]
    exact mul_le_mul hra hsb (abs_nonneg s) ((abs_nonneg r).trans hra)

theorem snap_natCast {n : ℕ} (h : n < 2 ^ 53) : snap n = n := by
  have : Dyadic ((n : ℤ) : ℝ) := dyadic_intCast (by rw [Nat.abs_cast]; exact_mod_cast h)
  exact_mod_cast snap_of_dyadic this

theorem natCast_lt {n : ℕ} (h : n < 2 ^ 53) : (n : ℝ) < 2 ^ 1024 := by
  have : (n : ℝ) < 2 ^ 53 := by exact_mod_cast h
  exact this.trans (pow_lt_pow_right₀ one_lt_two (by omega))

/-- A bound by a small whole number is kept exactly. -/
theorem Bounded.add_nat {x y : Float} {m n : ℕ} (hx : Bounded x m) (hy : Bounded y n)
    (h : m + n < 2 ^ 53) : Bounded (x + y) (m + n : ℕ) := by
  have hsnap : snap (m + n) = (m + n : ℕ) := by rw [← Nat.cast_add, snap_natCast h]
  exact hsnap ▸ hx.add hy (hsnap ▸ natCast_lt h)

theorem Bounded.sub_nat {x y : Float} {m n : ℕ} (hx : Bounded x m) (hy : Bounded y n)
    (h : m + n < 2 ^ 53) : Bounded (x - y) (m + n : ℕ) := by
  rw [sub_eq]
  exact hx.add_nat hy.neg h

theorem Bounded.mul_nat {x y : Float} {m n : ℕ} (hx : Bounded x m) (hy : Bounded y n)
    (h : m * n < 2 ^ 53) : Bounded (x * y) (m * n : ℕ) := by
  have hsnap : snap (m * n) = (m * n : ℕ) := by rw [← Nat.cast_mul, snap_natCast h]
  exact hsnap ▸ hx.mul hy (hsnap ▸ natCast_lt h)

theorem isNumber_ofInt (n : Int) : IsNumber (ofInt n) := (rounds_normalize n 0).1

/-- An integer is rounded once. -/
theorem value_ofInt_eq (n : Int) : value (ofInt n) = nearest (n : ℝ) := by
  refine (rounds_normalize n 0).2.trans ?_
  rw [zpow_zero, mul_one]

theorem value_ofInt {n : Int} (h : |n| < 2 ^ 53) : value (ofInt n) = (n : ℝ) := by
  have hlt : |(n : ℝ)| < 2 ^ 53 := by exact_mod_cast h
  rw [value_ofInt_eq]
  exact nearest_of_dyadic (dyadic_intCast h) (hlt.trans (pow_lt_pow_right₀ one_lt_two (by omega)))

/-- The double lies between the opposite of the bound and the bound. -/
def Within (b x : Float) : Prop := -b ≤ x ∧ x ≤ b

theorem Within.bounded {b x : Float} {n : Nat} (h : Within b x) (hb : b ≤ ofInt n)
    (hn : n < 2 ^ 53) : Bounded x n := by
  obtain ⟨-, hx, hlow⟩ := le_iff.mp h.1
  obtain ⟨-, -, hhigh⟩ := le_iff.mp h.2
  obtain ⟨-, -, hbound⟩ := le_iff.mp hb
  rw [value_ofInt (by rw [Nat.abs_cast]; exact_mod_cast hn), Int.cast_natCast] at hbound
  rw [value_neg] at hlow
  have hlow : ((-n : ℝ) : EReal) ≤ value x :=
    (EReal.coe_neg n ▸ EReal.neg_le_neg_iff.mpr hbound).trans hlow
  have hhigh : value x ≤ (n : ℝ) := hhigh.trans hbound
  refine ⟨hx, ?_⟩
  generalize value x = a at hlow hhigh
  lift a to ℝ using ⟨(hhigh.trans_lt (EReal.coe_lt_top _)).ne,
    ((EReal.bot_lt_coe _).trans_le hlow).ne'⟩
  exact ⟨a, rfl, abs_le.mpr ⟨EReal.coe_le_coe_iff.mp hlow, EReal.coe_le_coe_iff.mp hhigh⟩⟩

/-- What is rounded from a number that is not below zero is finite unless it is too large. -/
theorem isFinite_iff_snap_lt {x : Float} {r : ℝ} (hx : IsNumber x) (hr : value x = nearest r)
    (h0 : 0 ≤ r) : x.isFinite = true ↔ snap r < 2 ^ 1024 := by
  rw [nearest_of_nonneg h0] at hr
  by_cases hlt : snap r < 2 ^ 1024
  · rw [if_pos hlt] at hr
    exact iff_of_true (isFinite_of_value hx hr) hlt
  · rw [if_neg hlt] at hr
    refine iff_of_false (fun hfin => ?_) hlt
    obtain ⟨s, hs, -⟩ := exists_real hfin
    exact EReal.coe_ne_top s (hs.symm.trans hr)

/-! ## Lengths -/

/-- A double stands for a positive length. -/
structure Measures (x : Float) (a : ℝ) : Prop where
  /-- It is finite. -/
  isFinite : x.isFinite = true
  /-- It stands for the length. -/
  value_eq : value x = a
  /-- The length is positive. -/
  pos : 0 < a
  /-- The length has 53 bits. -/
  dyadic : Dyadic a

theorem exists_measures (circular : Circular) {x : Float}
    (h : @Scalar.isPositive Float (scalar circular) x = true) : ∃ a, Measures x a := by
  obtain ⟨hfin, hpos⟩ := Bool.and_eq_true_iff.mp h
  have hfin : x.isFinite = true := hfin
  obtain ⟨-, -, hpos⟩ := lt_iff.mp (of_decide_eq_true hpos)
  obtain ⟨a, ha, hd, -⟩ := exists_real hfin
  refine ⟨a, hfin, ha, ?_, hd⟩
  have hpos : value (ofInt 0) < value x := hpos
  rw [value_ofInt (by norm_num), ha] at hpos
  exact_mod_cast hpos

section

variable {x : Float} {a : ℝ}

theorem Measures.bounded (h : Measures x a) : Bounded x a :=
  ⟨isNumber_of_isFinite h.isFinite, a, h.value_eq, (abs_of_pos h.pos).le⟩

theorem Measures.value_ne_zero (h : Measures x a) : value x ≠ 0 := by
  rw [h.value_eq]
  exact EReal.coe_ne_zero.mpr h.pos.ne'

/-- A number times a length is the exact product, rounded, whatever the number. -/
theorem Measures.mul (h : Measures x a) {y : Float} (hy : IsNumber y) :
    IsNumber (y * x) ∧ value (y * x) = nearest (value y * a) := by
  have hnumber := isNumber_mul_of_ne_zero hy h.isFinite h.value_ne_zero
  exact ⟨hnumber, by rw [value_mul hnumber, h.value_eq]⟩

theorem Measures.lt (h : Measures x a) : a < 2 ^ 1024 := by
  obtain ⟨r, hr, -, hlt⟩ := exists_real h.isFinite
  have : a = r := EReal.coe_eq_coe_iff.mp (h.value_eq.symm.trans hr)
  exact this ▸ (le_abs_self r).trans_lt hlt

/-- A share of a length is at most the length. -/
theorem Measures.mul_le_one (h : Measures x a) {y : Float} (hy : Bounded y (1 : ℕ)) :
    Bounded (x * y) a := by
  have hsnap : snap (a * (1 : ℕ)) = a := by
    rw [Nat.cast_one, mul_one, snap_of_dyadic h.dyadic]
  exact hsnap ▸ h.bounded.mul hy (hsnap.symm ▸ h.lt)

end

end ScaraArm.Binary64
