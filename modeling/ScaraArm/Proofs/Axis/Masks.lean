import Mathlib
import ScaraArm.Axis.Homing

/-!
# Masks are sets of axes

A mask is a byte, and an axis is in it if a bit of the byte is set. The bit is found by shifting,
and a shift by the width of a byte or more would come around to a bit of another axis. It is never
made: an axis past the capacity has no bit at all, which is also what the power of two of its index
is in a byte. So one law serves all axes: the axes of a mask are the bits of a number below 256.

From it the operations are those of sets of numbers below eight, and two masks with the same axes
are the same byte. What a mask was put together from is therefore seen by its axes only, however
the parts were ordered, nested and repeated.
-/

namespace ScaraArm.AxisMask

variable {m n : AxisMask} {i j : Nat}

/-! ## The bits of a mask -/

/-- The bit of an axis is the power of two of its index, which is nothing past the capacity. -/
theorem toBitVec_flag (i : Nat) : (flag i).toBitVec = BitVec.twoPow 8 i := by
  unfold flag
  by_cases h : i < capacity
  · rw [if_pos h]
    unfold capacity at h
    revert i
    decide
  · have hpast : 8 ≤ i := not_lt.mp h
    rw [if_neg h, BitVec.twoPow_eq, BitVec.shiftLeft_eq_zero hpast]
    rfl

/-- **The axes of a mask are the bits of its byte.** -/
theorem contains_eq (m : AxisMask) (j : Nat) : m.contains j = m.bits.toBitVec.getLsbD j := by
  have hbyte : m.contains j = true ↔ m.bits.toBitVec &&& BitVec.twoPow 8 j ≠ 0 := by
    unfold contains
    rw [bne_iff_ne, Ne, ← UInt8.toBitVec_inj, UInt8.toBitVec_and, toBitVec_flag]
    rfl
  rw [Bool.eq_iff_iff, hbyte, BitVec.and_twoPow]
  cases hbit : m.bits.toBitVec.getLsbD j with
  | false => simp
  | true =>
    -- a bit that is set is in range, so the power of two does not vanish
    have hj : j < 8 := BitVec.lt_of_getLsbD hbit
    rw [if_pos rfl]
    refine iff_of_true (fun hzero => ?_) rfl
    have hpower := congrArg (fun bits : BitVec 8 => bits.getLsbD j) hzero
    simp [hj] at hpower

/-! ## The operations -/

theorem contains_ofBits (bits : UInt8) (j : Nat) :
    (AxisMask.mk bits).contains j = bits.toNat.testBit j := by
  rw [contains_eq, ← UInt8.toNat_toBitVec, BitVec.testBit_toNat]

@[simp] theorem contains_empty (j : Nat) : empty.contains j = false := by
  rw [empty, contains_ofBits]
  exact Nat.zero_testBit j

@[simp] theorem contains_union (m n : AxisMask) (j : Nat) :
    (m.union n).contains j = (m.contains j || n.contains j) := by
  rw [contains_eq, contains_eq, contains_eq, union, UInt8.toBitVec_or, BitVec.getLsbD_or]

@[simp] theorem contains_single (i j : Nat) : (single i).contains j = true ↔ i = j ∧ j < 8 := by
  rw [contains_eq, single, toBitVec_flag, BitVec.getLsbD_twoPow, Bool.and_eq_true,
    decide_eq_true_eq, decide_eq_true_eq, and_comm]
  exact and_congr_right fun h => h ▸ Iff.rfl

/-- To add an axis is to add the mask of it. -/
theorem insert_eq_union (m : AxisMask) (i : Nat) : m.insert i = m.union (single i) := rfl

@[simp] theorem contains_insert (m : AxisMask) (i j : Nat) :
    (m.insert i).contains j = true ↔ m.contains j = true ∨ i = j ∧ j < 8 := by
  rw [insert_eq_union, contains_union, Bool.or_eq_true, contains_single]

/-- No mask has an axis past the capacity. -/
theorem contains_of_le (m : AxisMask) (h : 8 ≤ i) : m.contains i = false := by
  rw [contains_eq, BitVec.getLsbD_of_ge _ _ h]

/-- **Masks with the same axes are the same.** -/
theorem eq_iff_contains : m = n ↔ ∀ j, m.contains j = n.contains j := by
  refine ⟨fun h _ => h ▸ rfl, fun h => ?_⟩
  have hbits : m.bits.toBitVec = n.bits.toBitVec := by
    refine BitVec.eq_of_getLsbD_eq fun j _ => ?_
    rw [← contains_eq, ← contains_eq]
    exact h j
  cases m
  cases n
  exact congrArg AxisMask.mk (UInt8.toBitVec_inj.mp hbits)

theorem isEmpty_iff_contains : m.isEmpty = true ↔ ∀ j, m.contains j = false := by
  have hempty : m.isEmpty = true ↔ m = empty := by
    cases m
    simp [isEmpty, empty]
  rw [hempty, eq_iff_contains]
  simp only [contains_empty]

/-- An axis past the capacity is not added. -/
theorem insert_of_le (m : AxisMask) (h : 8 ≤ i) : m.insert i = m := by
  refine eq_iff_contains.mpr fun j => ?_
  rw [Bool.eq_iff_iff, contains_insert]
  exact or_iff_left fun ⟨hij, hj⟩ => absurd (hij ▸ hj) (not_lt.mpr h)

/-! ## Putting masks together -/

/-- A way to put a mask together. -/
inductive Recipe where
  /-- Take the mask of no axis. -/
  | empty
  /-- Take a byte for a mask. -/
  | ofBits (bits : UInt8)
  /-- Take the mask of one axis. -/
  | single (i : Nat)
  /-- Put a mask together and add an axis. -/
  | insert (r : Recipe) (i : Nat)
  /-- Put two masks together and join them. -/
  | union (r s : Recipe)

namespace Recipe

/-- The mask that comes of a recipe. -/
def build : Recipe → AxisMask
  | empty => .empty
  | ofBits bits => ⟨bits⟩
  | single i => .single i
  | insert r i => r.build.insert i
  | union r s => r.build.union s.build

/-- The axes that a recipe names. -/
def axes : Recipe → Finset ℕ
  | empty | ofBits _ => ∅
  | single i => {i}
  | insert r i => Insert.insert i r.axes
  | union r s => r.axes ∪ s.axes

/-- The bytes that a recipe takes for masks. -/
def masks : Recipe → Finset UInt8
  | empty | single _ => ∅
  | ofBits bits => {bits}
  | insert r _ => r.masks
  | union r s => r.masks ∪ s.masks

/-- **An axis is in a mask if it is one that the recipe names, or if it is in one of its bytes.** -/
theorem contains_build (r : Recipe) (j : Nat) :
    r.build.contains j = true
      ↔ (j ∈ r.axes ∧ j < 8) ∨ ∃ bits ∈ r.masks, (AxisMask.mk bits).contains j = true := by
  induction r with
  | empty => simp [build, axes, masks]
  | ofBits bits => simp [build, axes, masks]
  | single i =>
    rw [build, contains_single, axes, Finset.mem_singleton, eq_comm]
    simp [masks]
  | insert r i ih =>
    rw [build, contains_insert, ih, axes, masks, Finset.mem_insert, or_and_right, or_comm,
      or_assoc, eq_comm]
  | union r s ihr ihs =>
    rw [build, contains_union, Bool.or_eq_true, ihr, ihs, axes, masks, Finset.mem_union,
      or_and_right, or_or_or_comm]
    simp only [Finset.mem_union, or_and_right, exists_or]

end Recipe

/--
**Masks are the sets of the axes below eight.**

Whether an axis is in a mask is a bit of its byte. Adding an axis adds it and no other, joining
masks joins their axes, and an axis past the capacity is in no mask and changes none. A mask is
empty if it has no axis, and two masks with the same axes have the same bits. So a mask that was
put together in any way has the axes below eight that were named and those of the bytes that were
taken, and its bits do not depend on anything else.
-/
theorem masks_as_sets :
    (∀ (bits : UInt8) (j : Nat), (AxisMask.mk bits).contains j = bits.toNat.testBit j)
      ∧ (∀ (m : AxisMask) (i j : Nat),
        (m.insert i).contains j = true ↔ m.contains j = true ∨ i = j ∧ j < 8)
      ∧ (∀ (m n : AxisMask) (j : Nat), (m.union n).contains j = (m.contains j || n.contains j))
      ∧ (∀ (m : AxisMask) (i : Nat), 8 ≤ i → m.contains i = false ∧ m.insert i = m)
      ∧ (∀ m : AxisMask, m.isEmpty = true ↔ ∀ j, m.contains j = false)
      ∧ (∀ m n : AxisMask, m.bits = n.bits ↔ ∀ j, m.contains j = n.contains j)
      ∧ (∀ (r : Recipe) (j : Nat), r.build.contains j = true
        ↔ (j ∈ r.axes ∧ j < 8) ∨ ∃ bits ∈ r.masks, (AxisMask.mk bits).contains j = true)
      ∧ ∀ r s : Recipe, r.axes = s.axes → r.masks = s.masks → r.build.bits = s.build.bits := by
  have hbits : ∀ m n : AxisMask, m.bits = n.bits ↔ ∀ j, m.contains j = n.contains j := by
    intro m n
    rw [← eq_iff_contains]
    cases m
    cases n
    rw [mk.injEq]
  refine ⟨contains_ofBits, contains_insert, contains_union,
    fun m i h => ⟨m.contains_of_le h, m.insert_of_le h⟩, fun _ => isEmpty_iff_contains, hbits,
    Recipe.contains_build, fun r s haxes hmasks => (hbits _ _).mpr fun j => ?_⟩
  rw [Bool.eq_iff_iff, r.contains_build, s.contains_build, haxes, hmasks]

/-- The first and the third axis, a byte with the second, and the twelfth, which no mask can hold:
nested one way and with a repetition the other way. -/
theorem masks_as_sets_of_three_axes :
    let r : Recipe := .insert (.insert (.union (.single 0) (.ofBits 2)) 2) 11
    let s : Recipe := .union (.insert (.insert .empty 2) 11) (.insert (.insert (.ofBits 2) 0) 2)
    (r.axes = s.axes ∧ r.masks = s.masks) ∧ r.build.bits = s.build.bits
      ∧ 8 ≤ 11 ∧ r.build.contains 11 = false ∧ r.build.insert 11 = r.build := by
  intro r s
  have haxes : r.axes = s.axes := by decide
  have hmasks : r.masks = s.masks := by decide
  obtain ⟨-, -, -, hpast, -, -, -, hbits⟩ := masks_as_sets
  exact ⟨⟨haxes, hmasks⟩, hbits r s haxes hmasks, by decide, hpast r.build 11 (by decide)⟩

end ScaraArm.AxisMask

namespace ScaraArm.Homing

variable {α : Type} [Scalar α] {k : Nat}

/-- **The axes that home together**: an axis and itself, and the two joints if they are linked. -/
theorem contains_group (h : Homing α k) (i j : Nat) :
    (h.group i).contains j = true
      ↔ j < 8 ∧ (i = j ∨ h.settings.linkJoints = true ∧ i < 2 ∧ j < 2) := by
  have hguard : (h.settings.linkJoints && (i == 0 || i == 1)) = true
      ↔ h.settings.linkJoints = true ∧ i < 2 := by
    rw [Bool.and_eq_true, Bool.or_eq_true, beq_iff_eq, beq_iff_eq]
    exact and_congr_right fun _ => by omega
  unfold group
  by_cases hlinked : h.settings.linkJoints = true ∧ i < 2
  · obtain ⟨hlink, hi⟩ := hlinked
    rw [if_pos (hguard.mpr ⟨hlink, hi⟩), AxisMask.contains_insert, AxisMask.contains_single]
    simp only [hlink, true_and]
    omega
  · have halone : ¬ (h.settings.linkJoints = true ∧ i < 2 ∧ j < 2) :=
      fun ⟨hlink, hi, _⟩ => hlinked ⟨hlink, hi⟩
    rw [if_neg (mt hguard.mp hlinked), AxisMask.contains_single, or_iff_left halone, and_comm]

end ScaraArm.Homing
