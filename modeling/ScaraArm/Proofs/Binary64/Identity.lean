import Mathlib
import ScaraArm.Proofs.Binary64.Arithmetic

/-!
# What tells two doubles apart

The bits of a double are its sign, its exponent and its mantissa, and what is read off them
differs when they differ, except that all that is undefined looks the same. A number has one
shape, so two doubles that are numbers are the same if they stand for the same number and have
the same sign; the sign only matters for zero. What is rounded from a mantissa without a sign
has none either.
-/

namespace ScaraArm.Binary64

open Float.Model (Format)
open Float.Model.UnpackedFloat

theorem toBitVec_ofBitVec (b : BitVec 1) : (Sign.ofBitVec b).toBitVec = b := by
  revert b
  decide

/-- A double is its sign, its exponent and its mantissa, side by side. -/
theorem packComponents_unpack (b : BitVec Format.binary64.numBits) :
    packComponents Format.binary64 (Sign.ofBitVec (unpackSign b)) (unpackExponent b)
      (unpackMantissa b) = b := by
  apply BitVec.eq_of_getLsbD_eq
  intro i hi
  have hi : i < 64 := hi
  unfold packComponents
  rw [toBitVec_ofBitVec]
  simp only [BitVec.getLsbD_append, unpackMantissa, unpackExponent, unpackSign,
    BitVec.getLsbD_cast, BitVec.getLsbD_extractLsb]
  split_ifs with hmantissa hexponent
  · rw [decide_eq_true (by omega), Bool.true_and, Nat.zero_add]
  · rw [decide_eq_true (by omega), Bool.true_and, Nat.add_sub_cancel' (by omega)]
  · rw [decide_eq_true (by omega), Bool.true_and]
    congr 1
    omega

/-- The fields of a double can be told from what it stands for. -/
theorem eq_of_unpack {s s' : Sign} {e e' : BitVec 11} {m m' : BitVec 52}
    (h : unpack Format.binary64 (packComponents Format.binary64 s e m)
      = unpack Format.binary64 (packComponents Format.binary64 s' e' m'))
    (hnumber : unpack Format.binary64 (packComponents Format.binary64 s e m) ≠ .notANumber) :
    s = s' ∧ e = e' ∧ m = m' := by
  rw [unpack_packComponents] at hnumber
  rw [unpack_packComponents, unpack_packComponents] at h
  have hm := m.isLt
  have hm' := m'.isLt
  -- a mantissa with the leading bit is not one without it
  split_ifs at h hnumber <;>
    simp only [infinity.injEq, zero.injEq, finite.injEq, toNat_implicit] at h <;>
    try contradiction
  · simp_all
  · simp_all
  · simp_all [BitVec.toNat_inj]
  · omega
  · omega
  · obtain ⟨hs, hmantissa, hexponent⟩ := h
    exact ⟨hs, BitVec.eq_of_toNat_eq (by omega), BitVec.eq_of_toNat_eq (by omega)⟩

/-- **What is read off a double tells it from all others.** -/
theorem eq_of_parts {x y : Float} (hx : IsNumber x) (h : parts x = parts y) : x = y := by
  obtain ⟨⟨b, _⟩⟩ := x
  obtain ⟨⟨c, _⟩⟩ := y
  have hb := packComponents_unpack b.toBitVec
  have hc := packComponents_unpack c.toBitVec
  have hunpack : unpack Format.binary64 b.toBitVec = unpack Format.binary64 c.toBitVec := h
  have hnumber : unpack Format.binary64 b.toBitVec ≠ .notANumber := hx
  rw [← hb] at hunpack hnumber
  rw [← hc] at hunpack
  obtain ⟨hs, he, hm⟩ := eq_of_unpack hunpack hnumber
  obtain rfl : b = c := UInt64.eq_of_toBitVec_eq (by rw [← hb, ← hc, hs, he, hm])
  rfl

/-- There is one way to write a number in the shape of a double. -/
theorem Canonical.unique {m₁ m₂ : Nat} {e₁ e₂ : Int} (h₁ : Canonical m₁ e₁)
    (h₂ : Canonical m₂ e₂) (h : (m₁ : ℝ) * 2 ^ e₁ = m₂ * 2 ^ e₂) : m₁ = m₂ ∧ e₁ = e₂ := by
  have heq := compare_then_eq h₁ h₂
  rw [(cmp_eq_eq_iff _ _).mpr h, Ordering.then_eq_eq, compare_eq_iff_eq, compare_eq_iff_eq] at heq
  exact heq.symm

/-- **A double is told from all others by its number and its sign.** -/
theorem eq_of_value {x y : Float} (hx : IsNumber x) (hy : IsNumber y) (h : value x = value y)
    (hsign : isNegative x = isNegative y) : x = y := by
  refine eq_of_parts hx ?_
  unfold value at h
  unfold isNegative at hsign
  cases px : parts x with
  | notANumber => exact absurd px hx
  | infinity s =>
    rw [px] at h hsign
    cases py : parts y with
    | notANumber => exact absurd py hy
    | infinity t =>
      rw [py] at hsign
      cases s <;> cases t <;> first | rfl | cases hsign
    | zero t =>
      rw [py] at h
      cases s
      · exact absurd h EReal.bot_ne_zero
      · exact absurd h EReal.top_ne_zero
    | finite t m e hm =>
      rw [py] at h
      cases s
      · exact absurd h (bot_lt_number t e hm).ne
      · exact absurd h (number_lt_top t e hm).ne'
  | zero s =>
    rw [px] at h hsign
    obtain ⟨t, py⟩ := parts_of_value_eq_zero hy h.symm
    rw [py] at hsign ⊢
    cases s <;> cases t <;> first | rfl | cases hsign
  | finite s m e hm =>
    rw [px] at h hsign
    cases py : parts y with
    | notANumber => exact absurd py hy
    | infinity t =>
      rw [py] at h
      cases t
      · exact absurd h (bot_lt_number s e hm).ne'
      · exact absurd h (number_lt_top s e hm).ne
    | zero t =>
      rw [py] at h
      exact absurd h (number_finite_ne_zero s e hm)
    | finite t m' e' hm' =>
      rw [py] at h hsign
      obtain rfl : s = t := by cases s <;> cases t <;> first | rfl | cases hsign
      rw [number_finite, number_finite, EReal.coe_eq_coe_iff] at h
      have hne : signOf s ≠ 0 := abs_ne_zero.mp (by rw [abs_signOf]; exact one_ne_zero)
      obtain ⟨rfl, rfl⟩ := (canonical_of_parts px).unique (canonical_of_parts py)
        (mul_left_cancel₀ hne h)
      rfl

/-! ## Signs -/

theorem isNegative_pack_finite {m : Nat} (e : Int) (h : 0 < m) :
    isNegative (.ofModel (.pack (.finite .positive m e h))) = false := by
  obtain ⟨e', m', hpack⟩ : ∃ e' m', pack Format.binary64 (.finite .positive m e h)
      = packComponents Format.binary64 .positive e' m' := by
    unfold pack
    dsimp only
    split_ifs <;> exact ⟨_, _, rfl⟩
  have hparts : parts (.ofModel (.pack (.finite .positive m e h)))
      = unpack Format.binary64 (packComponents Format.binary64 .positive e' m') :=
    congrArg (unpack Format.binary64) hpack
  unfold isNegative
  rw [hparts, unpack_packComponents]
  split_ifs <;> rfl

theorem isNegative_roundWithAccuracy (m : Nat) (e : Int) (a : Accuracy) :
    isNegative (.ofModel (.pack (roundWithAccuracy Format.binary64 .positive m e a))) = false := by
  unfold roundWithAccuracy
  dsimp only
  split_ifs
  · rfl
  · exact isNegative_pack_finite _ _

theorem isNegative_neg {x : Float} (h : IsNumber x) : isNegative (-x) = !isNegative x := by
  unfold isNegative
  rw [parts_neg]
  unfold IsNumber at h
  cases hx : parts x with
  | notANumber => exact absurd hx h
  | infinity s => cases s <;> rfl
  | zero s => cases s <;> rfl
  | finite s m e hm => cases s <;> rfl

end ScaraArm.Binary64
