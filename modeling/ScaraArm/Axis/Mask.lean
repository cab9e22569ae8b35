/-!
# Axis masks

A mask is a set of axes out of the first eight, one bit for each. An axis past the
eighth has no bit: it is in no mask, and adding it changes nothing.
-/

namespace ScaraArm

/-- A set of axes, one bit per axis. -/
structure AxisMask where
  /-- Bit `i` tells whether axis `i` is in the set. -/
  bits : UInt8
deriving Repr, DecidableEq

namespace AxisMask

/-- How many axes a mask can tell apart. -/
def capacity : Nat := 8

/-- The bit of an axis, or no bit at all past the capacity. -/
def flag (i : Nat) : UInt8 := if i < capacity then 1 <<< UInt8.ofNat i else 0

/-- The mask of no axis. -/
def empty : AxisMask := ⟨0⟩

/-- The mask of one axis. -/
def single (i : Nat) : AxisMask := ⟨flag i⟩

/-- Adds an axis. -/
def insert (m : AxisMask) (i : Nat) : AxisMask := ⟨m.bits ||| flag i⟩

/-- The axes of either mask. -/
def union (m n : AxisMask) : AxisMask := ⟨m.bits ||| n.bits⟩

/-- Whether an axis is in the mask. -/
def contains (m : AxisMask) (i : Nat) : Bool := m.bits &&& flag i != 0

/-- Whether no axis is in the mask. -/
def isEmpty (m : AxisMask) : Bool := m.bits == 0

end AxisMask

end ScaraArm
