import ScaraArm.Proofs.Axis.Homing
import ScaraArm.Proofs.Real.Reach

/-!
# Homing does not move the arm

Homing restates the record: the point that it held as a position becomes the angles of the
arm, in steps. Over the real numbers the angles are those of the point exactly, so the only
thing that can move the tip is that a count of steps is a whole number.

A rounded angle is off by half a step at most, and turning a link by an angle moves its end by
no more than the length of the link times the angle. Of the upper link it is the angle in the
world that counts, which in the relative convention has both roundings in it.
-/

namespace ScaraArm

open Real

/-! ## Rounding to steps -/

namespace AxisSettings

variable {axis : AxisSettings ℝ} {units : ℝ}

/-- The count of steps nearest to a number of units is in the range of step counts. -/
def Fits (axis : AxisSettings ℝ) (units : ℝ) : Prop :=
  nearestWhole (units * axis.stepsPerUnit) ∈ Set.Icc (-2 ^ 31) (2 ^ 31 - 1)

theorem toInt_stepsOfUnits (h : axis.Fits units) :
    (axis.stepsOfUnits units).toInt = nearestWhole (units * axis.stepsPerUnit) :=
  Int32.toInt_ofIntClamp h.1 h.2

/-- **A number of units read back off its step count is at most half a step away.** -/
theorem abs_unitsOfSteps_sub_le (hscale : 0 < axis.stepsPerUnit) (h : axis.Fits units) :
    |axis.unitsOfSteps (axis.stepsOfUnits units) - units| ≤ 1 / (2 * axis.stepsPerUnit) := by
  have hread : axis.unitsOfSteps (axis.stepsOfUnits units) - units
      = (nearestWhole (units * axis.stepsPerUnit) - units * axis.stepsPerUnit)
        / axis.stepsPerUnit := by
    show ((axis.stepsOfUnits units).toInt : ℝ) / axis.stepsPerUnit - units = _
    rw [toInt_stepsOfUnits h, sub_div, mul_div_cancel_right₀ _ hscale.ne']
  rw [hread, abs_div, abs_of_pos hscale, ← div_div]
  exact div_le_div_of_nonneg_right (abs_nearestWhole_sub_le _) hscale.le

end AxisSettings

/-! ## Turning a little -/

/-- Two points of the circle are no further apart than their angles. -/
theorem norm_circleExp_sub_le (a b : ℝ) : ‖(Circle.exp a : ℂ) - Circle.exp b‖ ≤ |a - b| := by
  have hturn : (Circle.exp a : ℂ) - Circle.exp b
      = Circle.exp b * (Complex.exp (Complex.I * (a - b : ℝ)) - 1) := by
    have hsum : Circle.exp a = Circle.exp b * Circle.exp (a - b) := by
      rw [← Circle.exp_add, add_sub_cancel]
    rw [hsum, Circle.coe_mul, Circle.coe_exp (a - b), mul_comm Complex.I]
    ring
  rw [hturn, norm_mul, Circle.norm_coe, one_mul]
  exact norm_exp_I_mul_ofReal_sub_one_le

theorem norm_turn_sub_le (a b : ℝ) :
    ‖(Circle.exp (Scalar.toRadians a) : ℂ) - Circle.exp (Scalar.toRadians b)‖
      ≤ π / 180 * |a - b| := by
  have hdegree : 0 < π / 180 := by positivity
  calc _ ≤ |Scalar.toRadians a - Scalar.toRadians b| := norm_circleExp_sub_le _ _
    _ = π / 180 * |a - b| := by
      rw [← Scalar.toRadians_sub, Scalar.toRadians_eq, abs_mul, abs_of_pos hdegree, mul_comm]

theorem Planar.norm_sub_toComplex (p q : Planar ℝ) :
    ‖p.toComplex - q.toComplex‖ = √((p.x - q.x) ^ 2 + (p.y - q.y) ^ 2) :=
  Planar.norm_toComplex ⟨p.x - q.x, p.y - q.y⟩

namespace Geometry

variable (g : Geometry ℝ)

/-- The tip is the sum of the links. -/
theorem toComplex_forward_links (q : JointPair ℝ) :
    (g.forward q).toComplex
      = g.lower * Circle.exp (Scalar.toRadians q.q1)
        + g.upper * Circle.exp (Scalar.toRadians (g.worldAngle q)) := by
  rw [← Planar.toComplex_polar, ← Planar.toComplex_polar]
  rfl

/-- **The tip moves by no more than each link times the change of its angle.** -/
theorem norm_forward_sub_le (q q' : JointPair ℝ) :
    ‖(g.forward q').toComplex - (g.forward q).toComplex‖
      ≤ π / 180 * (g.lower * |q'.q1 - q.q1| + g.upper * |g.worldAngle q' - g.worldAngle q|) := by
  have hlink : ∀ (l a b : ℝ), 0 < l →
      ‖(l : ℂ) * ((Circle.exp (Scalar.toRadians a) : ℂ) - Circle.exp (Scalar.toRadians b))‖
        ≤ π / 180 * (l * |a - b|) := by
    intro l a b hpos
    rw [norm_mul, Complex.norm_real, norm_of_nonneg hpos.le, mul_left_comm]
    exact mul_le_mul_of_nonneg_left (norm_turn_sub_le a b) hpos.le
  have hsplit : (g.forward q').toComplex - (g.forward q).toComplex
      = g.lower * ((Circle.exp (Scalar.toRadians q'.q1) : ℂ) - Circle.exp (Scalar.toRadians q.q1))
        + g.upper * ((Circle.exp (Scalar.toRadians (g.worldAngle q')) : ℂ)
          - Circle.exp (Scalar.toRadians (g.worldAngle q))) := by
    rw [toComplex_forward_links, toComplex_forward_links]
    ring
  rw [hsplit, mul_add]
  exact (norm_add_le _ _).trans
    (add_le_add (hlink _ _ _ g.lower_pos') (hlink _ _ _ g.upper_pos'))

/-- How far the upper link's angle in the world is off when both angles are. -/
theorem abs_worldAngle_sub_le {q q' : JointPair ℝ} {d₁ d₂ : ℝ} (h₁ : |q'.q1 - q.q1| ≤ d₁)
    (h₂ : |q'.q2 - q.q2| ≤ d₂) :
    |g.worldAngle q' - g.worldAngle q|
      ≤ match g.convention with
        | .absolute => d₂
        | .relative => d₁ + d₂ := by
  unfold worldAngle
  cases g.convention with
  | absolute => exact h₂
  | relative =>
    show |q'.q1 + q'.q2 - (q.q1 + q.q2)| ≤ d₁ + d₂
    rw [add_sub_add_comm]
    exact (abs_add_le _ _).trans (add_le_add h₁ h₂)

end Geometry

/-! ## Homing -/

namespace Homing

variable {k : Nat} {h : Homing ℝ k} {cycle : AxisMask} {record : StepRecord k}

/-- Without a forced origin a joint is put at its angle, in the cycle or not. -/
theorem jointSteps_of_not_forced (horigin : h.settings.forceSetOrigin = false) (i : Nat)
    (axis : AxisSettings ℝ) (angle : ℝ) :
    h.jointSteps cycle i axis angle = axis.stepsOfUnits angle := by
  have hzero : h.settings.pulloffSteps i axis = 0 := by
    unfold HomingSettings.pulloffSteps
    rw [horigin]
    rfl
  unfold jointSteps
  simp only [hzero, Int32.add_zero, ite_self]

/-- The tip at the angles that were solved is the recorded point. -/
theorem exists_angles_forward
    (hhole : |h.geometry.lower - h.geometry.upper| ≤ ‖(h.recordedPoint record).toComplex‖)
    (hreach : ‖(h.recordedPoint record).toComplex‖ ≤ h.geometry.lower + h.geometry.upper) :
    ∃ q, h.recordedAngles record = .ok q ∧ h.geometry.forward q = h.recordedPoint record := by
  obtain ⟨q, hq, htip⟩ := Geometry.forward_of_inverse hreach
  refine ⟨q, hq, Planar.toComplex_injective ?_⟩
  rw [htip, max_eq_left hhole, Planar.toComplex_polar]
  exact (h.recordedPoint record).toComplex_eq.symm

/--
**Homing does not move the arm**, but by what the rounding to whole steps moves its joints.
-/
theorem homing_keeps_tip (hcycle : cycle.isEmpty = false)
    (horigin : h.settings.forceSetOrigin = false)
    (hfirst : 0 < h.axes.first.stepsPerUnit) (hsecond : 0 < h.axes.second.stepsPerUnit) :
    let l₁ := h.geometry.lower
    let l₂ := h.geometry.upper
    let x : ℝ := record.first.toInt / h.axes.first.stepsPerUnit
    let y : ℝ := record.second.toInt / h.axes.second.stepsPerUnit
    let r := √(x ^ 2 + y ^ 2)
    let h₁ := 1 / (2 * h.axes.first.stepsPerUnit)
    let h₂ := 1 / (2 * h.axes.second.stepsPerUnit)
    |l₁ - l₂| ≤ r → r ≤ l₁ + l₂ →
      ∃ q, h.recordedAngles record = .ok q
        ∧ (h.axes.first.Fits q.q1 → h.axes.second.Fits q.q2 →
          ∃ new, h.setMachine cycle record = .ok new
            ∧ let tip := h.axes.positionOfSteps h.geometry new
              √((tip.x - x) ^ 2 + (tip.y - y) ^ 2)
                ≤ π / 180 * match h.geometry.convention with
                  | .absolute => l₁ * h₁ + l₂ * h₂
                  | .relative => l₁ * h₁ + l₂ * (h₁ + h₂)) := by
  intro l₁ l₂ x y r h₁ h₂ hhole hreach
  have hr : ‖(h.recordedPoint record).toComplex‖ = r := Planar.norm_toComplex _
  rw [← hr] at hhole hreach
  obtain ⟨q, hq, htip⟩ := exists_angles_forward hhole hreach
  refine ⟨q, hq, fun hfits₁ hfits₂ => ?_⟩
  -- the angles that the new record stands for
  let q' : JointPair ℝ := ⟨h.axes.first.unitsOfSteps (h.axes.first.stepsOfUnits q.q1),
    h.axes.second.unitsOfSteps (h.axes.second.stepsOfUnits q.q2)⟩
  have hq₁ : |q'.q1 - q.q1| ≤ h₁ := AxisSettings.abs_unitsOfSteps_sub_le hfirst hfits₁
  have hq₂ : |q'.q2 - q.q2| ≤ h₂ := AxisSettings.abs_unitsOfSteps_sub_le hsecond hfits₂
  have hworld := h.geometry.abs_worldAngle_sub_le hq₁ hq₂
  have hnew : h.setMachine cycle record = .ok ⟨h.axes.first.stepsOfUnits q.q1,
      h.axes.second.stepsOfUnits q.q2, Vector.replicate k 0⟩ := by
    rw [setMachine_of_nonempty hcycle, hq]
    simp only [jointSteps_of_not_forced horigin]
  refine ⟨_, hnew, ?_⟩
  calc √(((h.geometry.forward q').x - x) ^ 2 + ((h.geometry.forward q').y - y) ^ 2)
      = ‖(h.geometry.forward q').toComplex - (h.geometry.forward q).toComplex‖ := by
        rw [htip, Planar.norm_sub_toComplex]
        rfl
    _ ≤ π / 180 * (l₁ * |q'.q1 - q.q1|
          + l₂ * |h.geometry.worldAngle q' - h.geometry.worldAngle q|) :=
        h.geometry.norm_forward_sub_le q q'
    _ ≤ π / 180 * (l₁ * h₁ + l₂ * match h.geometry.convention with
          | .absolute => h₂
          | .relative => h₁ + h₂) := by
        gcongr
        · exact h.geometry.lower_pos'.le
        · exact h.geometry.upper_pos'.le
    _ = _ := by
        cases h.geometry.convention with
        | absolute => rfl
        | relative => rfl

/-- On the edge of the hole the arm is folded up, its elbow at half a turn. -/
theorem inverse_holed_folded : Geometry.holed.inverse ⟨2, 0⟩ = .ok ⟨0, -180⟩ := by
  have htwo : ∀ z : ℂ, z = ((2 : ℝ) : ℂ) → Complex.arg z = 0 := by
    rintro z rfl
    exact Complex.arg_ofReal_of_nonneg (by norm_num)
  have hnorm : ‖(⟨2, 0⟩ : Planar ℝ).toComplex‖ = 2 := by
    rw [Planar.norm_toComplex]
    norm_num
  have hbend : Geometry.holed.bend (2 ^ 2) = π := by
    have hcos : Geometry.holed.elbowCosine (2 ^ 2) = -1 := by
      rw [Geometry.elbowCosine_eq]
      show max (-1) (min (((2 : ℝ) ^ 2 - 3 ^ 2 - 1 ^ 2) / (2 * 3 * 1)) 1) = -1
      norm_num
    rw [Geometry.bend, hcos, arccos_neg_one]
  have hbent : Complex.arg (Geometry.holed.bent π) = 0 := by
    rw [Geometry.bent_eq, cos_pi, sin_pi]
    refine htwo _ (Complex.ext ?_ ?_)
    · show (3 : ℝ) + 1 * -1 = 2
      norm_num
    · exact mul_zero _
  rw [Geometry.inverse_of_norm_le, hnorm, hbend, hbent, htwo (Planar.toComplex ⟨2, 0⟩) rfl]
  · show Except.ok (JointPair.mk (Scalar.toDegrees (0 - -1 * 0))
      (Scalar.toDegrees (0 - -1 * 0 + -1 * π))) = _
    rw [mul_zero, sub_zero, zero_add, neg_one_mul, Scalar.toDegrees_eq, Scalar.toDegrees_eq,
      zero_mul, neg_mul, mul_div_cancel₀ _ pi_ne_zero]
  · rw [hnorm]
    show (2 : ℝ) ≤ 3 + 1
    norm_num

/-- The folded arm stays where it is when its upper joint is homed. -/
theorem homing_keeps_tip_of_the_folded_arm :
    let axis : AxisSettings ℝ := ⟨100, -360⟩
    let h : Homing ℝ 0 := ⟨Geometry.holed, ⟨axis, axis, #v[]⟩, ⟨5, false, .empty, false⟩⟩
    let cycle := AxisMask.single 1
    let record : StepRecord 0 := ⟨200, 0, #v[]⟩
    cycle.isEmpty = false ∧ h.settings.forceSetOrigin = false ∧ 0 < axis.stepsPerUnit
      ∧ ∃ new, h.setMachine cycle record = .ok new
        ∧ let tip := h.axes.positionOfSteps h.geometry new
          √((tip.x - 2) ^ 2 + (tip.y - 0) ^ 2) ≤ π / 180 * (3 * (1 / 200) + 1 * (1 / 200)) := by
  intro axis h cycle record
  have hcycle : cycle.isEmpty = false := by decide
  have hscale : 0 < axis.stepsPerUnit := by
    show (0 : ℝ) < 100
    norm_num
  have hx : ((200 : Int32).toInt : ℝ) / axis.stepsPerUnit = 2 := by
    show ((200 : ℤ) : ℝ) / 100 = 2
    norm_num
  have hy : ((0 : Int32).toInt : ℝ) / axis.stepsPerUnit = 0 := by
    show ((0 : ℤ) : ℝ) / 100 = 0
    norm_num
  have hr : √((2 : ℝ) ^ 2 + 0 ^ 2) = 2 := by norm_num
  have hangles : h.recordedAngles record = .ok ⟨0, -180⟩ := by
    rw [← inverse_holed_folded, ← hx, ← hy]
    rfl
  have hfits : axis.Fits 0 ∧ axis.Fits (-180) := by
    have hzero : (0 : ℝ) * axis.stepsPerUnit = (0 : ℤ) := by
      rw [zero_mul, Int.cast_zero]
    have hhalf : (-180 : ℝ) * axis.stepsPerUnit = (-18000 : ℤ) := by
      show (-180 : ℝ) * 100 = _
      norm_num
    unfold AxisSettings.Fits
    rw [hzero, hhalf, nearestWhole_intCast, nearestWhole_intCast]
    refine ⟨⟨?_, ?_⟩, ?_, ?_⟩ <;> norm_num
  have hhole : |(3 : ℝ) - 1| ≤ √(((200 : Int32).toInt / axis.stepsPerUnit : ℝ) ^ 2
      + ((0 : Int32).toInt / axis.stepsPerUnit) ^ 2) := by
    rw [hx, hy, hr]
    norm_num
  have hreach : √(((200 : Int32).toInt / axis.stepsPerUnit : ℝ) ^ 2
      + ((0 : Int32).toInt / axis.stepsPerUnit) ^ 2) ≤ 3 + 1 := by
    rw [hx, hy, hr]
    norm_num
  obtain ⟨q, hq, hmoves⟩ := @homing_keeps_tip 0 h cycle record hcycle rfl hscale hscale hhole hreach
  have hq : q = ⟨0, -180⟩ := Except.ok.inj (hq.symm.trans hangles)
  subst hq
  obtain ⟨new, hnew, htip⟩ := hmoves hfits.1 hfits.2
  refine ⟨hcycle, rfl, hscale, new, hnew, ?_⟩
  have hread : ∀ x y : ℝ, x = 2 → y = 0 →
      √(((h.axes.positionOfSteps h.geometry new).x - x) ^ 2
        + ((h.axes.positionOfSteps h.geometry new).y - y) ^ 2)
        ≤ π / 180 * (3 * (1 / (2 * 100)) + 1 * (1 / (2 * 100))) →
      √(((h.axes.positionOfSteps h.geometry new).x - 2) ^ 2
        + ((h.axes.positionOfSteps h.geometry new).y - 0) ^ 2)
        ≤ π / 180 * (3 * (1 / 200) + 1 * (1 / 200)) := by
    rintro x y rfl rfl hle
    refine hle.trans (le_of_eq ?_)
    norm_num
  exact hread _ _ hx hy htip

end Homing

end ScaraArm
