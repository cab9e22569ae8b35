import Mathlib.Analysis.SpecialFunctions.Complex.Circle
import ScaraArm.Proofs.Real.Scalar

/-!
# The arm as a product of turns

Over the real numbers the plane is the complex plane, and turning it is multiplication by a
point of the unit circle. So the tip of the arm is the direction of its lower link times the
tip of the arm whose lower link lies on the first axis. Of that only the turn at the elbow
is left to know, and it is called `bent` here.

Inverse kinematics first bends the elbow until the tip is as far out as the target, and then
turns the arm until the tip has the target's bearing. Bent by at most half a turn, the arm
comes as near to its base as the difference of the links and no nearer, so this is where
targets nearer than that are missed.
-/

namespace ScaraArm

open Real

namespace Planar

/-- The point as a complex number. -/
def toComplex (p : Planar ℝ) : ℂ := ⟨p.x, p.y⟩

/-- The point at a distance and a bearing. -/
noncomputable def polar (r b : ℝ) : Planar ℝ := ⟨r * cos b, r * sin b⟩

theorem toComplex_injective {p q : Planar ℝ} (h : p.toComplex = q.toComplex) : p = q := by
  obtain ⟨x, y⟩ := p
  obtain ⟨x', y'⟩ := q
  cases h
  rfl

theorem toComplex_polar (r b : ℝ) : (polar r b).toComplex = r * Circle.exp b := by
  apply Complex.ext
  · rw [Complex.re_ofReal_mul, Circle.coe_exp, Complex.exp_ofReal_mul_I_re]
    rfl
  · rw [Complex.im_ofReal_mul, Circle.coe_exp, Complex.exp_ofReal_mul_I_im]
    rfl

theorem sq_norm_toComplex (p : Planar ℝ) : ‖p.toComplex‖ ^ 2 = p.x * p.x + p.y * p.y := by
  rw [Complex.sq_norm, Complex.normSq_apply]
  rfl

theorem norm_toComplex (p : Planar ℝ) : ‖p.toComplex‖ = √(p.x ^ 2 + p.y ^ 2) := by
  rw [← sqrt_sq (norm_nonneg p.toComplex), sq_norm_toComplex, pow_two, pow_two]

/-- A point is where its distance and its bearing say. -/
theorem toComplex_eq (p : Planar ℝ) :
    p.toComplex = ‖p.toComplex‖ * Circle.exp (Complex.arg p.toComplex) :=
  (Complex.norm_mul_exp_arg_mul_I p.toComplex).symm

end Planar

/-- To which side the elbow turns the upper link. -/
def Elbow.side : Elbow → ℝ
  | .up => -1
  | .down => 1

namespace Geometry

variable (g : Geometry ℝ)

/-- The angle of the upper link, measured from the lower one. -/
def relativeAngle (q : JointPair ℝ) : ℝ :=
  match g.convention with
  | .absolute => q.q2 - q.q1
  | .relative => q.q2

/-- The tip of the arm whose lower link lies on the first axis. -/
noncomputable def bent (turn : ℝ) : ℂ := g.lower + g.upper * Circle.exp turn

theorem worldAngle_eq (q : JointPair ℝ) : g.worldAngle q = q.q1 + g.relativeAngle q := by
  unfold worldAngle relativeAngle
  cases g.convention with
  | absolute => exact (add_sub_cancel q.q1 q.q2).symm
  | relative => rfl

/-- **The tip is the bent arm, turned.** -/
theorem toComplex_forward (q : JointPair ℝ) :
    (g.forward q).toComplex
      = Circle.exp (Scalar.toRadians q.q1) * g.bent (Scalar.toRadians (g.relativeAngle q)) := by
  have hsum : (g.forward q).toComplex
      = (Planar.polar g.lower (Scalar.toRadians q.q1)).toComplex
        + (Planar.polar g.upper (Scalar.toRadians (g.worldAngle q))).toComplex := rfl
  rw [hsum, Planar.toComplex_polar, Planar.toComplex_polar, worldAngle_eq, Scalar.toRadians_add,
    Circle.exp_add, Circle.coe_mul, bent]
  ring

/-! ## The bent arm -/

theorem bent_eq (turn : ℝ) :
    g.bent turn = ⟨g.lower + g.upper * cos turn, g.upper * sin turn⟩ := by
  have hupper : g.bent turn = g.lower + (Planar.polar g.upper turn).toComplex := by
    rw [Planar.toComplex_polar]
    rfl
  rw [hupper]
  apply Complex.ext
  · rw [Complex.add_re, Complex.ofReal_re]
    rfl
  · rw [Complex.add_im, Complex.ofReal_im, zero_add]
    rfl

theorem bent_add_turns (turn : ℝ) (n : ℤ) : g.bent (turn + n * (2 * π)) = g.bent turn := by
  unfold bent
  rw [Circle.exp_add, Circle.exp_int_mul_two_pi, mul_one]

theorem bent_neg (turn : ℝ) : g.bent (-turn) = (starRingEnd ℂ) (g.bent turn) := by
  unfold bent
  rw [Circle.exp_neg, Circle.coe_inv_eq_conj, map_add, map_mul, Complex.conj_ofReal,
    Complex.conj_ofReal]

/-- The law of cosines. -/
theorem sq_norm_bent (turn : ℝ) :
    ‖g.bent turn‖ ^ 2 = g.lower ^ 2 + g.upper ^ 2 + 2 * g.lower * g.upper * cos turn := by
  rw [bent_eq, Complex.sq_norm, Complex.normSq_mk]
  linear_combination g.upper ^ 2 * sin_sq_add_cos_sq turn

/-- The two sides of an elbow bring the tip equally far out, on bearings that are opposite. -/
theorem bent_side (e : Elbow) (turn : ℝ) :
    g.bent (e.side * turn) = ‖g.bent turn‖ * Circle.exp (e.side * Complex.arg (g.bent turn)) := by
  have hpolar : (‖g.bent turn‖ : ℂ) * Circle.exp (Complex.arg (g.bent turn)) = g.bent turn :=
    Complex.norm_mul_exp_arg_mul_I _
  cases e with
  | down =>
    show g.bent (1 * turn) = ‖g.bent turn‖ * Circle.exp (1 * Complex.arg (g.bent turn))
    rw [one_mul, one_mul, hpolar]
  | up =>
    show g.bent (-1 * turn) = ‖g.bent turn‖ * Circle.exp (-1 * Complex.arg (g.bent turn))
    rw [neg_one_mul, neg_one_mul, bent_neg, Circle.exp_neg, Circle.coe_inv_eq_conj]
    conv_lhs => rw [← hpolar]
    rw [map_mul, Complex.conj_ofReal]

theorem norm_bent_side (e : Elbow) (turn : ℝ) : ‖g.bent (e.side * turn)‖ = ‖g.bent turn‖ := by
  rw [bent_side, norm_mul, Circle.norm_coe, mul_one, Complex.norm_real, norm_norm]

/-! ## The bend that inverse kinematics takes -/

/-- How far the elbow is bent at a point of the given squared distance. -/
noncomputable def bend (squared : ℝ) : ℝ := arccos (g.elbowCosine squared)

theorem elbowCosine_eq (squared : ℝ) :
    g.elbowCosine squared
      = max (-1) (min ((squared - g.lower ^ 2 - g.upper ^ 2) / (2 * g.lower * g.upper)) 1) := by
  have htwo : (Scalar.ofInt 2 : ℝ) = 2 := Int.cast_ofNat 2
  unfold elbowCosine
  rw [Scalar.clampUnit_eq, htwo, pow_two, pow_two]

theorem cos_bend (squared : ℝ) : cos (g.bend squared) = g.elbowCosine squared := by
  unfold bend
  rw [elbowCosine_eq]
  exact cos_arccos (le_max_left _ _) (max_le (by norm_num) (min_le_right _ _))

/-- At a distance that the elbow can bring the tip to, nothing is pulled back. -/
theorem elbowCosine_sq_norm_bent (turn : ℝ) :
    g.elbowCosine (‖g.bent turn‖ ^ 2) = cos turn := by
  have hl := g.lower_pos'
  have hu := g.upper_pos'
  have hcos : (‖g.bent turn‖ ^ 2 - g.lower ^ 2 - g.upper ^ 2) / (2 * g.lower * g.upper)
      = cos turn := by
    rw [sq_norm_bent]
    field_simp
    ring
  rw [elbowCosine_eq, hcos, min_eq_left (cos_le_one turn), max_eq_right (neg_one_le_cos turn)]

/-- **The bent arm reaches as far as the target, or down to the edge of the hole.** -/
theorem norm_bent_bend {r : ℝ} (hr : 0 ≤ r) (hreach : r ≤ g.lower + g.upper) :
    ‖g.bent (g.bend (r ^ 2))‖ = max r |g.lower - g.upper| := by
  have hl := g.lower_pos'
  have hu := g.upper_pos'
  have hlu : 0 < 2 * g.lower * g.upper := by positivity
  have hone : (r ^ 2 - g.lower ^ 2 - g.upper ^ 2) / (2 * g.lower * g.upper) ≤ 1 := by
    rw [div_le_one hlu]
    nlinarith
  have hnorm : ‖g.bent (g.bend (r ^ 2))‖ ^ 2 = (max r |g.lower - g.upper|) ^ 2 := by
    rw [sq_norm_bent, cos_bend, elbowCosine_eq, min_eq_left hone]
    rcases le_total |g.lower - g.upper| r with hout | hin
    · -- outside of the hole the law of cosines holds
      have hsq : (g.lower - g.upper) ^ 2 ≤ r ^ 2 := sq_le_sq.mpr (by rwa [abs_of_nonneg hr])
      have hneg : -1 ≤ (r ^ 2 - g.lower ^ 2 - g.upper ^ 2) / (2 * g.lower * g.upper) := by
        rw [le_div_iff₀ hlu]
        nlinarith
      rw [max_eq_right hneg, max_eq_left hout]
      field_simp
      ring
    · -- in the hole the arm is folded up
      have hsq : r ^ 2 ≤ (g.lower - g.upper) ^ 2 := sq_le_sq.mpr (by rwa [abs_of_nonneg hr])
      have hneg : (r ^ 2 - g.lower ^ 2 - g.upper ^ 2) / (2 * g.lower * g.upper) ≤ -1 := by
        rw [div_le_iff₀ hlu]
        nlinarith
      rw [max_eq_left hneg, max_eq_right hin, sq_abs]
      ring
  exact (pow_left_inj₀ (norm_nonneg _) (le_max_of_le_left hr) two_ne_zero).mp hnorm

/-! ## The pose at a point -/

/-- The angles in degrees of the arm whose lower link has a direction and whose elbow makes a
turn. -/
noncomputable def pose (direction turn : ℝ) : JointPair ℝ :=
  ⟨Scalar.toDegrees direction,
    Scalar.toDegrees (match g.convention with
      | .absolute => direction + turn
      | .relative => turn)⟩

theorem relativeAngle_pose (direction turn : ℝ) :
    Scalar.toRadians (g.relativeAngle (g.pose direction turn)) = turn := by
  unfold relativeAngle pose
  cases g.convention with
  | absolute =>
    show Scalar.toRadians (Scalar.toDegrees (direction + turn) - Scalar.toDegrees direction) = turn
    rw [← Scalar.toDegrees_sub, add_sub_cancel_left, Scalar.toRadians_toDegrees]
  | relative => exact Scalar.toRadians_toDegrees turn

theorem toComplex_forward_pose (direction turn : ℝ) :
    (g.forward (g.pose direction turn)).toComplex = Circle.exp direction * g.bent turn := by
  rw [toComplex_forward, relativeAngle_pose]
  show (Circle.exp (Scalar.toRadians (Scalar.toDegrees direction)) : ℂ) * _ = _
  rw [Scalar.toRadians_toDegrees]

/-- Whole turns at either joint stay whole turns in the driven angles. -/
theorem pose_add_turns (q : JointPair ℝ) (m n : ℤ) :
    ∃ m' n' : ℤ, g.pose (Scalar.toRadians q.q1 + m * (2 * π))
        (Scalar.toRadians (g.relativeAngle q) + n * (2 * π))
      = ⟨q.q1 + 360 * m', q.q2 + 360 * n'⟩ := by
  unfold relativeAngle pose
  cases g.convention with
  | absolute =>
    refine ⟨m, m + n, ?_⟩
    have hsum : Scalar.toRadians q.q1 + m * (2 * π)
        + (Scalar.toRadians (q.q2 - q.q1) + n * (2 * π))
        = Scalar.toRadians q.q2 + (m + n : ℤ) * (2 * π) := by
      rw [Scalar.toRadians_sub]
      push_cast
      ring
    show JointPair.mk _ (Scalar.toDegrees (_ + (Scalar.toRadians (q.q2 - q.q1) + _))) = _
    rw [hsum, Scalar.toDegrees_add_turns, Scalar.toDegrees_add_turns, Scalar.toDegrees_toRadians,
      Scalar.toDegrees_toRadians]
  | relative =>
    refine ⟨m, n, ?_⟩
    show JointPair.mk _ (Scalar.toDegrees (Scalar.toRadians q.q2 + _)) = _
    rw [Scalar.toDegrees_add_turns, Scalar.toDegrees_add_turns, Scalar.toDegrees_toRadians,
      Scalar.toDegrees_toRadians]

/-- **What inverse kinematics is over the real numbers.** -/
theorem inverse_of_norm_le {p : Planar ℝ} (h : ‖p.toComplex‖ ≤ g.lower + g.upper) :
    g.inverse p = .ok (g.pose
      (Complex.arg p.toComplex
        - g.elbow.side * Complex.arg (g.bent (g.bend (‖p.toComplex‖ ^ 2))))
      (g.elbow.side * g.bend (‖p.toComplex‖ ^ 2))) := by
  have hsq : squaredDistance p = ‖p.toComplex‖ ^ 2 := (Planar.sq_norm_toComplex p).symm
  have hin : g.reaches p = true := by
    rw [reaches_iff, ← Planar.sq_norm_toComplex, pow_two]
    exact mul_self_le_mul_self (norm_nonneg _) h
  unfold inverse
  rw [if_pos hin, hsq]
  -- the angle at the base is the bearing of the bent arm
  have hbeta : Scalar.atan2 (g.upper * Scalar.sin (g.bend (‖p.toComplex‖ ^ 2)))
      (g.lower + g.upper * g.elbowCosine (‖p.toComplex‖ ^ 2))
      = Complex.arg (g.bent (g.bend (‖p.toComplex‖ ^ 2))) := by
    rw [bent_eq, cos_bend]
    rfl
  cases g.elbow with
  | up =>
    show Except.ok (g.pose (Complex.arg p.toComplex + Scalar.atan2 _ _) (-g.bend _))
      = Except.ok (g.pose (_ - -1 * _) (-1 * _))
    rw [← hbeta, neg_one_mul, neg_one_mul, sub_neg_eq_add]
    rfl
  | down =>
    show Except.ok (g.pose (Complex.arg p.toComplex - Scalar.atan2 _ _) (g.bend _))
      = Except.ok (g.pose (_ - 1 * _) (1 * _))
    rw [← hbeta, one_mul, one_mul]
    rfl

end Geometry

end ScaraArm
