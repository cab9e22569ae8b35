import Mathlib
import ScaraArm.Binary64.Scalar

/-!
# The one way to write a double

A finite double is `±m · 2^e`, and there is only one way to write it: either the mantissa
has all of its 53 bits, or the exponent is the least one the format has. Comparison relies
on this shape, because it looks at the exponents first, and so does packing, which does not
store the leading bit.

Three facts carry the rest. What is read off a double has the shape; what has the shape is
read back as it was packed, or as an infinity when it is too large; and cutting a number to
the format leaves it with the shape, provided that the number was given with bits enough.
-/

namespace ScaraArm.Binary64

open Float.Model (Format totalExponent)
open Float.Model.UnpackedFloat

/-- `m · 2^e` is written the way a double is. -/
structure Canonical (m : Nat) (e : Int) : Prop where
  /-- The mantissa has at most 53 bits. -/
  lt : m < 2 ^ 53
  /-- The exponent is not below the least one. -/
  le : -1074 ≤ e
  /-- The mantissa has all its bits, or the exponent is the least one. -/
  full : 2 ^ 52 ≤ m ∨ e = -1074

/-! ## Reading and packing -/

theorem toNat_implicit (v : BitVec 52) : (1#1 ++ v).toNat = 2 ^ 52 + v.toNat := by
  rw [BitVec.toNat_append, ← Nat.shiftLeft_add_eq_or_of_lt v.isLt]
  rfl

/-- What is read off a finite double has the shape of one. -/
theorem canonical_of_parts {x : Float} {s : Sign} {m : Nat} {e : Int} {h : 0 < m}
    (hx : parts x = .finite s m e h) : Canonical m e := by
  unfold parts Float.Model.unpack unpack at hx
  dsimp only at hx
  split at hx
  · split at hx <;> cases hx
  · split at hx
    · split at hx
      · cases hx
      · -- a subnormal number: the least exponent
        rename_i hexp _
        cases hx
        have hm : (@unpackMantissa Format.binary64 x.toModel.toBits.toBitVec).toNat
            < 2 ^ 52 := BitVec.isLt _
        refine ⟨by omega, ?_, Or.inr ?_⟩ <;> simp [hexp, Format.exponentBias]
    · -- a normal number: the leading bit is there
      rename_i hexp
      cases hx
      have hm : (@unpackMantissa Format.binary64 x.toModel.toBits.toBitVec).toNat
          < 2 ^ 52 := BitVec.isLt _
      have he : (@unpackExponent Format.binary64 x.toModel.toBits.toBitVec).toNat ≠ 0 :=
        fun h0 => hexp (BitVec.eq_of_toNat_eq h0)
      rw [toNat_implicit]
      refine ⟨by omega, ?_, Or.inl (by omega)⟩
      simp only [Format.exponentBias]
      omega

/-- The exponent of a finite double is not above the greatest one. -/
theorem lt_of_parts {x : Float} {s : Sign} {m : Nat} {e : Int} {h : 0 < m}
    (hx : parts x = .finite s m e h) : e < 972 := by
  unfold parts Float.Model.unpack unpack at hx
  dsimp only at hx
  split at hx
  · split at hx <;> cases hx
  · rename_i hmax
    have hlt : (@unpackExponent Format.binary64 x.toModel.toBits.toBitVec).toNat < 2 ^ 11 :=
      BitVec.isLt _
    have hne : (@unpackExponent Format.binary64 x.toModel.toBits.toBitVec).toNat ≠ 2047 :=
      fun h0 => hmax (BitVec.eq_of_toNat_eq h0)
    split at hx
    · rename_i hexp
      split at hx
      · cases hx
      · cases hx
        simp [hexp, Format.exponentBias]
    · cases hx
      simp only [Format.exponentBias]
      omega

theorem unpackSign_packComponents {spec : Format} (s : Sign) (e : BitVec spec.exponentBits)
    (m : BitVec spec.mantissaBitsWithoutImplicit) :
    unpackSign (packComponents spec s e m) = s.toBitVec := by
  ext i hi
  have : i = 0 := by omega
  subst this
  simp [unpackSign, packComponents, BitVec.getLsbD_append, BitVec.getElem_append]

theorem unpack_packComponents (s : Sign) (e : BitVec 11) (m : BitVec 52) :
    unpack Format.binary64 (packComponents Format.binary64 s e m)
      = if e = -1#11 then (if m = 0#52 then .infinity s else .notANumber)
        else if e = 0#11 then
          (if h : m = 0#52 then .zero s
            else .finite s m.toNat (-1074) (by simpa [BitVec.toNat_pos, BitVec.pos_iff_ne_zero]))
        else .finite s (1#1 ++ m).toNat (e.toNat - 1075) (by rw [toNat_implicit]; omega) := by
  have hs : Sign.ofBitVec s.toBitVec = s := by cases s <;> rfl
  unfold unpack
  simp only [unpackSign_packComponents, unpackMantissa_packComponents,
    unpackExponent_packComponents, hs]
  by_cases he : e = 0#11
  · subst he
    rfl
  · simp only [he, if_false]
    rfl

theorem parts_pack_infinity (s : Sign) :
    parts (.ofModel (.pack (.infinity s))) = .infinity s := by
  show unpack Format.binary64 (packedInfinity Format.binary64 s) = _
  unfold packedInfinity
  rw [unpack_packComponents]
  rfl

/-- **Packing keeps what has the shape of a double**, or makes it infinite if its exponent is
above the greatest one. -/
theorem parts_pack {s : Sign} {m : Nat} {e : Int} (h : 0 < m) (hc : Canonical m e) :
    parts (.ofModel (.pack (.finite s m e h)))
      = if e < 972 then .finite s m e h else .infinity s := by
  obtain ⟨hlt, hle, hfull⟩ := hc
  have hbias : (e + ((Format.binary64.exponentBias : Nat) : Int)
      + ((Format.binary64.mantissaBitsWithoutImplicit : Nat) : Int)).toNat = (e + 1075).toNat := by
    simp only [Format.exponentBias]
    omega
  have hlog : m.log2 < 53 := (Nat.log2_lt h.ne').mpr hlt
  show unpack Format.binary64 (pack Format.binary64 (.finite s m e h)) = _
  by_cases hsmall : e < 972
  · rw [if_pos hsmall]
    have hfits : ¬ 2 ^ 11 ≤ (e + 1075).toNat + 1 := by omega
    unfold pack
    simp only [hbias]
    rw [if_neg hfits]
    have hexp : (BitVec.ofNat 11 (e + 1075).toNat).toNat = (e + 1075).toNat := by
      rw [BitVec.toNat_ofNat]
      omega
    have hmax : BitVec.ofNat 11 (e + 1075).toNat ≠ -1#11 := by
      intro he
      rw [he] at hexp
      simp at hexp
      omega
    split
    · rename_i hm
      have hbit : 2 ^ 52 ≤ m := by
        refine (Nat.le_log2 h.ne').mp ?_
        simp only [Format.mantissaBits] at hm
        omega
      have hzero : BitVec.ofNat 11 (e + 1075).toNat ≠ 0#11 := by
        intro he
        rw [he] at hexp
        simp at hexp
        omega
      rw [unpack_packComponents, if_neg hmax, if_neg hzero, finite.injEq, toNat_implicit, hexp,
        BitVec.toNat_ofNat]
      refine ⟨rfl, by omega, by omega⟩
    · -- the leading bit is missing, so the exponent is the least one
      rename_i hm
      have hbit : m < 2 ^ 52 := by
        refine (Nat.log2_lt h.ne').mp ?_
        simp only [Format.mantissaBits] at hm
        omega
      have hne : BitVec.ofNat 52 m ≠ 0#52 := by
        intro h0
        have := congrArg BitVec.toNat h0
        rw [BitVec.toNat_ofNat, BitVec.toNat_zero] at this
        omega
      rw [unpack_packComponents, if_neg (by decide), if_pos rfl, dif_neg hne, finite.injEq,
        BitVec.toNat_ofNat]
      refine ⟨rfl, by omega, by omega⟩
  · -- too large for the format
    rw [if_neg hsmall]
    have hlarge : 2 ^ 11 ≤ (e + 1075).toNat + 1 := by omega
    unfold pack
    simp only [hbias]
    rw [if_pos hlarge]
    exact parts_pack_infinity s

/-! ## Rounding -/

theorem mantissa_shiftRight (em : ExtendedMantissa) (n : Nat) :
    (em >>> n).mantissa = em.mantissa / 2 ^ n := by
  induction n with
  | zero => exact (Nat.div_one _).symm
  | succ n ih =>
    show (em >>> n).mantissa / 2 = _
    rw [ih, Nat.div_div_eq_div_mul, Nat.pow_succ]

theorem mantissa_ofMantissaAndAccuracy (m : Nat) (a : Accuracy) :
    (ExtendedMantissa.ofMantissaAndAccuracy m a).mantissa = m := by
  unfold ExtendedMantissa.ofMantissaAndAccuracy
  split <;> rfl

theorem le_roundedMantissa (em : ExtendedMantissa) : em.mantissa ≤ em.roundedMantissa := by
  unfold ExtendedMantissa.roundedMantissa Accuracy.roundToNearestEven
  split <;> omega

theorem log2_shiftLeft {m : Nat} (h : 0 < m) (n : Nat) : (m <<< n).log2 = m.log2 + n := by
  rw [Nat.shiftLeft_eq, Nat.log2_eq_iff (by positivity)]
  refine ⟨?_, ?_⟩
  · rw [Nat.pow_add]
    exact Nat.mul_le_mul_right _ (Nat.log2_self_le h.ne')
  · rw [Nat.add_right_comm, Nat.pow_add]
    exact Nat.mul_lt_mul_of_pos_right Nat.lt_log2_self (Nat.two_pow_pos _)

/-- How many bits of `m · 2^e` the format has no room for. -/
def excess (m : Nat) (e : Int) : Nat := (max (m.log2 - 52 : Int) (-1074 - e)).toNat

/-- Cutting a number to the format drops just its excess. -/
theorem shiftToTargetExponent_eq (m : Nat) (e : Int) (a : Accuracy) :
    shiftToTargetExponent Format.binary64 m e a
      = (ExtendedMantissa.ofMantissaAndAccuracy m a >>> excess m e, e + excess m e) := by
  have : (Format.binary64.targetExponent (totalExponent m e) - e).toNat = excess m e := by
    simp only [Format.targetExponent, totalExponent, Format.minExponent, Format.mantissaBits,
      excess]
    omega
  unfold shiftToTargetExponent shiftToExponent
  simp only [this]

theorem div_excess_lt (m : Nat) (e : Int) : m / 2 ^ excess m e < 2 ^ 53 := by
  rw [Nat.div_lt_iff_lt_mul (Nat.two_pow_pos _), ← Nat.pow_add]
  refine Nat.lt_of_lt_of_le Nat.lt_log2_self (Nat.pow_le_pow_right (by omega) ?_)
  unfold excess
  omega

theorem le_add_excess (m : Nat) (e : Int) : -1074 ≤ e + excess m e := by
  unfold excess
  omega

/-- A number given with bits enough fills the format, unless it is subnormal. -/
theorem div_excess_full {m : Nat} {e : Int} (hbits : 52 ≤ m.log2 ∨ e ≤ -1074) :
    2 ^ 52 ≤ m / 2 ^ excess m e ∨ e + excess m e = -1074 := by
  by_cases hmin : e + excess m e = -1074
  · exact Or.inr hmin
  · left
    have hexc : m.log2 = 52 + excess m e := by
      unfold excess at hmin ⊢
      omega
    have hm : m ≠ 0 := by
      rintro rfl
      rw [Nat.log2_zero] at hexc
      omega
    rw [Nat.le_div_iff_mul_le (Nat.two_pow_pos _), ← Nat.pow_add, ← hexc]
    exact Nat.log2_self_le hm

end ScaraArm.Binary64
