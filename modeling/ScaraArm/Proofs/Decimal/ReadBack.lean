import Mathlib
import ScaraArm.Proofs.Binary64.Identity
import ScaraArm.Proofs.Decimal.Shortest

/-!
# Doubles come back from their numerals

A finite double is written as its shortest decimal, with or without a power of ten. The numeral
is read by taking the double nearest to the number it says. That double is the written one,
whatever the style:

* a whole number times a power of ten is rounded once (`rounds_ofScientific`), also where the
  power is so far away that it is not computed;
* so two decimals of the same size and sign name the same double (`toFloat_congr`), and the decimals
  that name a double are those of its sign in its interval (`toFloat_eq_iff_mem`);
* the search finds one of these (`toFloat_shortest`), and none is better (`shortest_best`);
* a numeral says what the decimal it is made from says, wherever its point stands (`Says`).
-/

namespace ScaraArm.Binary64

open Float.Model (Format)
open Float.Model.UnpackedFloat

/-! ## Powers of ten -/

theorem two_zpow_le_ten_zpow {e : ℤ} (h : 0 ≤ e) : (2 : ℝ) ^ e ≤ 10 ^ e := by
  lift e to ℕ using h
  rw [zpow_natCast, zpow_natCast]
  gcongr
  norm_num

theorem ten_zpow_le_two_zpow {e : ℤ} (h : e ≤ 0) : (10 : ℝ) ^ e ≤ 2 ^ e :=
  Decimal.zpow_le_zpow_of_neg two_pos (by norm_num) (two_zpow_le_ten_zpow (neg_nonneg.mpr h))

/-- Far above the doubles. -/
theorem nearest_of_large_power {m : Nat} {e : ℤ} (hm : m ≠ 0) (he : 2048 < e) :
    nearest ((m * 10 ^ e : ℝ)) = ⊤ := by
  refine nearest_of_le ?_
  have hone : (1 : ℝ) ≤ m := by exact_mod_cast Nat.pos_of_ne_zero hm
  calc (2 : ℝ) ^ 1024 = 2 ^ (1024 : ℤ) := (zpow_natCast 2 1024).symm
    _ ≤ 2 ^ e := zpow_le_zpow_right₀ one_le_two (by omega)
    _ ≤ 10 ^ e := two_zpow_le_ten_zpow (by omega)
    _ ≤ m * 10 ^ e := le_mul_of_one_le_left (by positivity) hone

/-- Far below the doubles. -/
theorem nearest_of_small_power {m : Nat} {e : ℤ} (hm : m ≠ 0) (he : e < -(2048 + m.log2)) :
    nearest ((m * 10 ^ e : ℝ)) = 0 := by
  have hpos : 0 < m := Nat.pos_of_ne_zero hm
  have hlog : (m : ℝ) < 2 ^ (m.log2 + 1 : ℤ) := by exact_mod_cast @Nat.lt_log2_self m
  refine nearest_of_lt (by positivity) ?_
  calc (m : ℝ) * 10 ^ e < 2 ^ (m.log2 + 1 : ℤ) * 2 ^ e :=
        mul_lt_mul hlog (ten_zpow_le_two_zpow (by omega)) (by positivity) (by positivity)
    _ = 2 ^ (m.log2 + 1 + e : ℤ) := (zpow_add₀ two_ne_zero _ _).symm
    _ ≤ 2 ^ (-1075 : ℤ) := zpow_le_zpow_right₀ one_le_two (by omega)

/-- A whole number is given more bits than a double has before it is multiplied. -/
theorem rounds_mul_ten_pow {m k : Nat} (hm : 0 < m <<< 53) (hk : 0 < 10 ^ k) :
    Rounds (mul Format.binary64 (.finite .positive (m <<< 53) (-53) hm)
      (.finite .positive (10 ^ k) 0 hk)) ((m * 10 ^ k : ℝ)) := by
  have hbits : 52 ≤ (m <<< 53 * 10 ^ k).log2 := by
    refine (Nat.le_log2 (Nat.mul_pos hm hk).ne').mpr ?_
    have hne : m ≠ 0 := fun h => hm.ne' (by rw [h, Nat.zero_shiftLeft])
    calc 2 ^ 52 ≤ 2 ^ 53 := by norm_num
      _ ≤ m * 2 ^ 53 := Nat.le_mul_of_pos_left _ (Nat.pos_of_ne_zero hne)
      _ = m <<< 53 := (Nat.shiftLeft_eq m 53).symm
      _ ≤ _ := Nat.le_mul_of_pos_right _ hk
  have hvalue : signOf (.positive * .positive)
      * ((m <<< 53 : ℕ) * 2 ^ (-53 : ℤ) * ((10 ^ k : ℕ) * 2 ^ (0 : ℤ))) = (m * 10 ^ k : ℝ) := by
    have hcancel : (2 : ℝ) ^ 53 * 2 ^ (-53 : ℤ) = 1 := by
      rw [← zpow_natCast, ← zpow_add₀ two_ne_zero]
      rfl
    rw [show signOf (.positive * .positive) = 1 from rfl, Nat.shiftLeft_eq, one_mul, zpow_zero,
      mul_one, Nat.cast_mul, Nat.cast_pow, Nat.cast_pow, Nat.cast_ofNat, Nat.cast_ofNat,
      mul_assoc (m : ℝ), hcancel, mul_one]
  rw [← hvalue]
  exact rounds_mul_of_bits .positive .positive hm hk (Or.inl hbits)

theorem rounds_div_ten_pow {m k : Nat} (hm : 0 < m) (hk : 0 < 10 ^ k) :
    Rounds (div Format.binary64 (.finite .positive m 0 hm) (.finite .positive (10 ^ k) 0 hk))
      ((m / 10 ^ k : ℝ)) := by
  have hvalue : signOf (.positive / .positive)
      * (m * 2 ^ (0 : ℤ) / ((10 ^ k : ℕ) * 2 ^ (0 : ℤ))) = (m / 10 ^ k : ℝ) := by
    rw [show signOf (.positive / .positive) = 1 from rfl, one_mul, zpow_zero, mul_one, mul_one]
    push_cast
    rfl
  rw [← hvalue]
  exact rounds_div_finite .positive .positive hm hk

/-- **A whole number times a power of ten is rounded once.** -/
theorem rounds_ofScientific (m : Nat) (e : Int) :
    Rounds (ofScientific Format.binary64 m e) ((m * 10 ^ e : ℝ)) := by
  have hsize : (2 : ℤ) ^ Format.binary64.exponentBits = 2048 := by norm_num
  unfold ofScientific
  rw [hsize]
  split_ifs with hm hlarge hsmall hnonneg
  · rw [hm, Nat.cast_zero, zero_mul]
    exact rounds_zero .positive
  · -- the power is not computed where the result is plain without it
    obtain ⟨hnumber, hvalue⟩ := rounds_infinity .positive
    refine ⟨hnumber, hvalue.trans ?_⟩
    rw [nearest_of_large_power hm hlarge]
    rfl
  · obtain ⟨hnumber, hvalue⟩ := rounds_zero .positive
    refine ⟨hnumber, hvalue.trans ?_⟩
    rw [nearest_of_small_power hm hsmall, nearest_zero]
  · lift e to ℕ using hnonneg
    have hpos : 0 < m <<< 53 := by
      rw [Nat.shiftLeft_eq]
      positivity
    rw [zpow_natCast]
    exact rounds_mul_ten_pow hpos (by positivity)
  · have hpow : (m * 10 ^ e : ℝ) = m / 10 ^ (-e).toNat := by
      rw [div_eq_mul_inv, ← zpow_natCast, ← zpow_neg, Int.toNat_of_nonneg (by omega), neg_neg]
    rw [hpow]
    exact rounds_div_ten_pow (Nat.pos_of_ne_zero hm) (by positivity)

theorem value_ofScientific (m : Nat) (e : Int) :
    IsNumber (.ofModel (.ofScientific m e))
      ∧ value (.ofModel (.ofScientific m e)) = nearest ((m * 10 ^ e : ℝ)) :=
  rounds_ofScientific m e

/-- The sign of a decimal is kept apart from this. -/
theorem isNegative_ofScientific (m : Nat) (e : Int) :
    isNegative (.ofModel (.ofScientific m e)) = false := by
  unfold Float.Model.ofScientific ofScientific
  split_ifs
  · rfl
  · rfl
  · rfl
  · exact isNegative_roundWithAccuracy _ _ _
  · exact isNegative_roundWithAccuracy _ _ _

end ScaraArm.Binary64

namespace ScaraArm.Decimal

open Binary64
open Float.Model.UnpackedFloat (Sign)

variable {d d' : Decimal} {x : Float}

/-! ## The double that a decimal names -/

theorem size_nonneg (d : Decimal) : 0 ≤ d.size := by
  rw [size_eq]
  positivity

theorem isNumber_toFloat (d : Decimal) : IsNumber d.toFloat := by
  have hnumber := (value_ofScientific d.coefficient d.exponent).1
  unfold toFloat
  cases d.negative with
  | false => exact hnumber
  | true => exact isNumber_neg.mpr hnumber

theorem value_toFloat (d : Decimal) :
    value d.toFloat = if d.negative then -nearest d.size else nearest d.size := by
  have hvalue := (value_ofScientific d.coefficient d.exponent).2
  rw [size_eq, ← hvalue]
  unfold toFloat
  cases d.negative with
  | false => rfl
  | true => exact value_neg _

theorem isNegative_toFloat (d : Decimal) : isNegative d.toFloat = d.negative := by
  have hnumber := (value_ofScientific d.coefficient d.exponent).1
  have hunsigned := isNegative_ofScientific d.coefficient d.exponent
  unfold toFloat
  cases d.negative with
  | false => exact hunsigned
  | true => exact (isNegative_neg hnumber).trans (congrArg Bool.not hunsigned)

/-- **A decimal names the same double however it is written.** -/
theorem toFloat_congr (hsign : d.negative = d'.negative) (hsize : d.size = d'.size) :
    d.toFloat = d'.toFloat := by
  refine eq_of_value (isNumber_toFloat d) (isNumber_toFloat d') ?_ ?_
  · rw [value_toFloat, value_toFloat, hsign, hsize]
  · rw [isNegative_toFloat, isNegative_toFloat, hsign]

section

variable {s : Sign} {m : Nat} {e : Int} {h : 0 < m}

theorem value_of_parts (hx : parts x = .finite s m e h) :
    value x = if isNegative x then -((m * 2 ^ e : ℝ) : EReal) else ((m * 2 ^ e : ℝ) : EReal) := by
  unfold value isNegative
  rw [hx, number_finite]
  cases s with
  | positive => rw [signOf, one_mul]; rfl
  | negative => rw [signOf, neg_one_mul]; rfl

theorem abs_of_parts (hx : parts x = .finite s m e h) {r : ℝ} (hr : value x = r) :
    |r| = m * 2 ^ e := by
  have hpos : (0 : ℝ) ≤ m * 2 ^ e := by positivity
  rw [value_of_parts hx] at hr
  split_ifs at hr
  · rw [← EReal.coe_neg, EReal.coe_eq_coe_iff] at hr
    rw [← hr, abs_neg, abs_of_nonneg hpos]
  · rw [← EReal.coe_eq_coe_iff.mp hr, abs_of_nonneg hpos]

/-- **A decimal names a double if it has its sign and is rounded to its size.** -/
theorem toFloat_eq_iff (hx : parts x = .finite s m e h) :
    d.toFloat = x ↔ d.negative = isNegative x ∧ snap d.size = m * 2 ^ e := by
  have hvalue := value_of_parts hx
  constructor
  · rintro rfl
    refine ⟨(isNegative_toFloat d).symm, snap_of_nearest ?_⟩
    rw [value_toFloat, isNegative_toFloat] at hvalue
    cases hsign : d.negative with
    | false =>
      rw [hsign] at hvalue
      exact hvalue
    | true =>
      rw [hsign] at hvalue
      exact neg_inj.mp hvalue
  · rintro ⟨hsign, hsnap⟩
    have hlt : |snap d.size| < 2 ^ 1024 := by
      rw [hsnap, abs_of_nonneg (by positivity)]
      exact (canonical_of_parts hx).mul_lt_two_pow (lt_of_parts hx)
    refine eq_of_value (isNumber_toFloat d) (fun hnan => ?_) ?_ ?_
    · rw [hx] at hnan
      cases hnan
    · rw [value_toFloat, hvalue, hsign, nearest_of_abs_lt hlt, hsnap]
    · rw [isNegative_toFloat, hsign]

/-- The decimals that name a double are those of its sign in its interval. -/
theorem toFloat_eq_iff_mem (hx : parts x = .finite s m e h) :
    d.toFloat = x ↔ d.negative = isNegative x ∧ d.size ∈ (Interval.of m e).numbers := by
  rw [toFloat_eq_iff hx]
  refine and_congr_right fun _ => ?_
  rcases (size_nonneg d).eq_or_lt with hzero | hpos
  · -- zero is rounded to itself and in no interval
    rw [← hzero, snap_zero]
    refine iff_of_false (fun heq => ?_) fun hmem => lt_irrefl _ (Interval.pos_of_mem_numbers h hmem)
    have hpos : (0 : ℝ) < m * 2 ^ e := by positivity
    exact hpos.ne heq
  · exact (Interval.mem_numbers_iff (canonical_of_parts hx) h hpos).symm

end

/-! ## The shortest decimal -/

/-- **The shortest decimal of a double names it.** -/
theorem toFloat_shortest {tie : Tie} (h : shortest? tie x = some d) : d.toFloat = x := by
  unfold shortest? at h
  split at h
  · cases h
  · cases h
  · rename_i s hx
    obtain rfl := Option.some.inj h
    refine (eq_of_parts (fun hnan => ?_) ?_).symm
    · rw [hx] at hnan
      cases hnan
    · unfold isNegative
      rw [hx]
      cases s <;> rfl
  · rename_i hx
    exact (toFloat_eq_iff_mem hx).mpr ⟨negative_of_search? h, size_mem_of_search? h⟩

/-- **No decimal with fewer digits names the double**, and none that has as many is nearer to it. -/
theorem shortest_best {tie : Tie} (h : shortest? tie x = some d) (h' : d'.toFloat = x) {r : ℝ}
    (hr : value x = r) :
    d.length ≤ d'.length ∧ (d'.length ≤ d.length → |d.size - abs r| ≤ |d'.size - abs r|) := by
  unfold shortest? at h
  split at h
  · cases h
  · cases h
  · obtain rfl := Option.some.inj h
    refine ⟨Nat.zero_le _, fun hle => ?_⟩
    have hzero : d'.coefficient = 0 := Nat.lt_one_iff.mp (length_le_iff.mp hle)
    rw [size_eq, size_eq, hzero, Nat.cast_zero, zero_mul, zero_mul]
  · rename_i m e hm hx
    have hbest := search?_best (canonical_of_parts hx) hm (lt_of_parts hx) h
      ((toFloat_eq_iff_mem hx).mp h').2
    rwa [abs_of_parts hx hr]

end ScaraArm.Decimal

namespace ScaraArm.Numeral

/-- A numeral says what a decimal says. -/
structure Says (n : Numeral) (d : Decimal) : Prop where
  negative : n.isNegative = d.negative
  size : n.toDecimal.size = d.size

theorem isNegative_signOf (negative : Bool) {n : Numeral} (h : n.sign = signOf negative) :
    n.isNegative = negative := by
  unfold isNegative
  rw [h]
  cases negative <;> rfl

theorem size_toDecimal {n : Numeral} {c : Nat}
    (hc : Nat.ofDigitChars 10 (n.whole ++ n.fraction.getD []) 0 = c) {e : Int}
    (he : n.powerValue - (n.fraction.getD []).length = e) :
    n.toDecimal.size = c * 10 ^ e := by
  rw [Decimal.size_eq, ← hc, ← he]
  rfl

theorem ofDigitChars_toDigits (n : Nat) : Nat.ofDigitChars 10 (Nat.toDigits 10 n) 0 = n :=
  Nat.ofDigitChars_ten_toDigits

theorem says_positional (d : Decimal) : (positional d).Says d := by
  have hdigits := ofDigitChars_toDigits d.coefficient
  unfold positional
  dsimp only
  split_ifs with hexp hlt
  · -- zeros stand for the power
    refine ⟨isNegative_signOf _ rfl, (size_toDecimal (c := 10 ^ d.exponent.toNat * d.coefficient)
      (e := 0) ?_ rfl).trans ?_⟩
    · simp only [Option.getD_none, List.append_nil, Nat.ofDigitChars_append, hdigits,
        Nat.ofDigitChars_replicate_zero]
    · rw [Decimal.size_eq, zpow_zero, mul_one, Nat.cast_mul, Nat.cast_pow, Nat.cast_ofNat,
        ← zpow_natCast, Int.toNat_of_nonneg hexp, mul_comm]
  · -- the point stands among the digits
    refine ⟨isNegative_signOf _ rfl,
      (size_toDecimal (c := d.coefficient) (e := d.exponent) ?_ ?_).trans (d.size_eq).symm⟩
    · simp only [Option.getD_some, List.take_append_drop, hdigits]
    · simp only [powerValue, Option.getD_some, List.length_drop]
      omega
  · -- the point stands before them
    refine ⟨isNegative_signOf _ rfl,
      (size_toDecimal (c := d.coefficient) (e := d.exponent) ?_ ?_).trans (d.size_eq).symm⟩
    · have hzero : ['0'] = List.replicate 1 '0' := rfl
      simp only [Option.getD_some, Nat.ofDigitChars_append, hzero, Nat.ofDigitChars_replicate_zero,
        Nat.mul_zero, hdigits]
    · simp only [powerValue, Option.getD_some, List.length_append, List.length_replicate]
      omega

/-- A zero behind the point says nothing new. -/
theorem Says.pointZero {n : Numeral} {d : Decimal} (h : n.Says d) (hn : n.fraction = none) :
    { n with fraction := some ['0'] }.Says d := by
  refine ⟨h.negative, Eq.trans ?_ h.size⟩
  have hdigits : Nat.ofDigitChars 10 (n.whole ++ ['0']) 0
      = 10 ^ 1 * Nat.ofDigitChars 10 (n.whole ++ []) 0 := by
    have hzero : ['0'] = List.replicate 1 '0' := rfl
    rw [List.append_nil, hzero, Nat.ofDigitChars_append, Nat.ofDigitChars_replicate_zero]
  rw [size_toDecimal (n := { n with fraction := some ['0'] }) hdigits rfl,
    size_toDecimal (n := n) rfl rfl, hn]
  show ((10 ^ 1 * _ : ℕ) : ℝ) * 10 ^ (n.powerValue - 1) = _ * 10 ^ (n.powerValue - 0)
  rw [sub_zero, zpow_sub_one₀ (by norm_num), Nat.cast_mul, pow_one, Nat.cast_ofNat,
    Option.getD_none]
  ring

theorem powerValue_signed {n : Numeral} {k : Int}
    (h : n.power = some (some (if k < 0 then '-' else '+'), Nat.toDigits 10 k.natAbs)) :
    n.powerValue = k := by
  unfold powerValue
  rw [h]
  dsimp only
  rw [ofDigitChars_toDigits]
  by_cases hk : k < 0
  · rw [if_pos hk, if_pos (by rfl)]
    omega
  · rw [if_neg hk, if_neg (by decide)]
    omega

theorem says_scientific (d : Decimal) : (scientific d).Says d := by
  have hfraction : (scientific d).fraction.getD [] = (Nat.toDigits 10 d.coefficient).drop 1 := by
    unfold scientific
    dsimp only
    split_ifs with hempty
    · rw [List.isEmpty_iff.mp hempty, Option.getD_none]
    · rw [Option.getD_some]
  have hpower : (scientific d).powerValue = leadingPower d := powerValue_signed rfl
  have hlength : 0 < (Nat.toDigits 10 d.coefficient).length :=
    List.length_pos_iff.mpr Nat.toDigits_ne_nil
  refine ⟨isNegative_signOf _ rfl,
    (size_toDecimal (c := d.coefficient) (e := d.exponent) ?_ ?_).trans (d.size_eq).symm⟩
  · rw [hfraction]
    show Nat.ofDigitChars 10 ((Nat.toDigits 10 d.coefficient).take 1 ++ _) 0 = _
    rw [List.take_append_drop, ofDigitChars_toDigits]
  · rw [hfraction, hpower, List.length_drop]
    unfold leadingPower
    omega

/-- A numeral names the double that the decimal it says names. -/
theorem Says.toFloat_eq {n : Numeral} {d : Decimal} (h : n.Says d) :
    n.toDecimal.toFloat = d.toFloat :=
  Decimal.toFloat_congr h.negative h.size

end ScaraArm.Numeral

namespace ScaraArm.Decimal

/-- **The numeral of a double names it**, in every style. -/
theorem toFloat_of_numeral {style : Style} {x : Float} {n : Numeral}
    (h : style.numeral? x = some n) : n.toDecimal.toFloat = x := by
  unfold Style.numeral? at h
  obtain ⟨d, hd, rfl⟩ := Option.map_eq_some_iff.mp h
  refine Eq.trans (Numeral.Says.toFloat_eq (d := d) ?_) (toFloat_shortest hd)
  dsimp only
  split_ifs with hplain hpoint
  · have hnone : (Numeral.positional d).fraction = none :=
      Option.isNone_iff_eq_none.mp (Bool.and_eq_true_iff.mp hpoint).2
    exact (Numeral.says_positional d).pointZero hnone
  · exact Numeral.says_positional d
  · exact Numeral.says_scientific d

end ScaraArm.Decimal
