import ScaraArm.PerAxis
import ScaraArm.Scalar

/-!
# Positions and joint vectors

The same machine is described twice: by a position, the point in millimetres that the
tip is at together with the carried axes, and by its joints, the two angles in degrees
together with the same carried axes. Positions are added, subtracted and divided axis by
axis; joints are not, because the arm does not move in straight lines between them.
-/

namespace ScaraArm

/-- A machine position in millimetres. -/
structure Position (α : Type) (k : Nat) extends PerAxis α k
deriving Repr, DecidableEq

/-- A joint vector: two angles in degrees, the carried axes in their own units. -/
structure Joints (α : Type) (k : Nat) extends PerAxis α k
deriving Repr, DecidableEq

namespace Position

variable {α : Type} {k : Nat}

/-- The first coordinate of the tip. -/
abbrev x (p : Position α k) : α := p.first

/-- The second coordinate of the tip. -/
abbrev y (p : Position α k) : α := p.second

instance [BEq α] : BEq (Position α k) where
  beq p q := p.toPerAxis == q.toPerAxis

instance [Add α] : Add (Position α k) where
  add p q := ⟨p.zipWith (· + ·) q.toPerAxis⟩

instance [Sub α] : Sub (Position α k) where
  sub p q := ⟨p.zipWith (· - ·) q.toPerAxis⟩

instance [Div α] : HDiv (Position α k) α (Position α k) where
  hDiv p d := ⟨p.map (· / d)⟩

/-- Positions agree when they agree on every axis. -/
theorem ext_axes {p q : Position α k} (hx : p.x = q.x) (hy : p.y = q.y)
    (hcarried : ∀ i (_ : i < k), p.carried[i] = q.carried[i]) : p = q := by
  obtain ⟨⟨x, y, carried⟩⟩ := p
  obtain ⟨⟨x', y', carried'⟩⟩ := q
  cases hx
  cases hy
  cases Vector.ext hcarried
  rfl

section Axes

variable (p q : Position α k) (d : α) (i : Nat) (h : i < k)

@[simp] theorem x_add [Add α] : (p + q).x = p.x + q.x := rfl

@[simp] theorem y_add [Add α] : (p + q).y = p.y + q.y := rfl

@[simp] theorem carried_add [Add α] : (p + q).carried[i] = p.carried[i] + q.carried[i] :=
  Vector.getElem_zipWith _

@[simp] theorem x_sub [Sub α] : (p - q).x = p.x - q.x := rfl

@[simp] theorem y_sub [Sub α] : (p - q).y = p.y - q.y := rfl

@[simp] theorem carried_sub [Sub α] : (p - q).carried[i] = p.carried[i] - q.carried[i] :=
  Vector.getElem_zipWith _

@[simp] theorem x_div [Div α] : (p / d).x = p.x / d := rfl

@[simp] theorem y_div [Div α] : (p / d).y = p.y / d := rfl

@[simp] theorem carried_div [Div α] : (p / d).carried[i] = p.carried[i] / d :=
  Vector.getElem_map _ _

end Axes

/-- The origin of every axis. -/
def origin [Scalar α] (k : Nat) : Position α k := ⟨.replicate k Scalar.zero⟩

/-- Distance from the base in the plane the arm sweeps. The carried axes have no part in it. -/
def planarNorm [Scalar α] (p : Position α k) : α := Scalar.hypot p.x p.y

end Position

namespace Joints

variable {α : Type} {k : Nat}

/-- The angle of the lower link. -/
abbrev q1 (q : Joints α k) : α := q.first

/-- The angle of the upper link, measured as the geometry says. -/
abbrev q2 (q : Joints α k) : α := q.second

instance [BEq α] : BEq (Joints α k) where
  beq p q := p.toPerAxis == q.toPerAxis

/-- Every angle and every carried axis at zero. -/
def zero [Scalar α] (k : Nat) : Joints α k := ⟨.replicate k Scalar.zero⟩

end Joints

end ScaraArm
