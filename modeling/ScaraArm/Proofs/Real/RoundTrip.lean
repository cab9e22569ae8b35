import ScaraArm.Proofs.Real.Pose

/-!
# Forward and inverse kinematics undo each other

Both directions meet at the pose: inverse kinematics names the direction of the lower link
and the turn at the elbow, and the tip of a pose is known.

From the point back to the point everything is kept outside of the hole, and in the hole the
bearing is. From the angles back to the angles everything is kept up to whole turns, if the
elbow was on the side the arm is built for. The other side has the same tips, so there only
the tip comes back. At the base every direction of the folded arm has the same tip, and no
angle can come back.
-/

namespace ScaraArm

open Real

namespace Geometry

variable {g : Geometry ℝ} {p : Planar ℝ} {q : JointPair ℝ}

/-- An arm with a hole of two millimetres around its base. -/
noncomputable def holed : Geometry ℝ where
  lower := 3
  upper := 1
  elbow := .up
  convention := .absolute
  lower_pos := Scalar.isPositive_iff.mpr (by norm_num)
  upper_pos := Scalar.isPositive_iff.mpr (by norm_num)

/-! ## From the point back -/

/-- The tip of the solution is as far out as the bent arm, on the bearing of the target. -/
theorem forward_of_inverse (h : ‖p.toComplex‖ ≤ g.lower + g.upper) :
    ∃ q, g.inverse p = .ok q
      ∧ g.forward q
        = .polar (max ‖p.toComplex‖ |g.lower - g.upper|) (Complex.arg p.toComplex) := by
  refine ⟨_, g.inverse_of_norm_le h, Planar.toComplex_injective ?_⟩
  rw [toComplex_forward_pose, bent_side, g.norm_bent_bend (norm_nonneg _) h,
    Planar.toComplex_polar, Circle.exp_sub, Circle.coe_div]
  field_simp

/--
**Forward kinematics undoes inverse kinematics, up to the hole.**

The machine's positions come back in the same way, with the carried axes as they were.
-/
theorem forward_inverse (h : √(p.x ^ 2 + p.y ^ 2) ≤ g.lower + g.upper) :
    let r := √(p.x ^ 2 + p.y ^ 2)
    let b := Scalar.atan2 p.y p.x
    let R := max r |g.lower - g.upper|
    let tip : Planar ℝ := ⟨R * cos b, R * sin b⟩
    (∃ q, g.inverse p = .ok q ∧ g.forward q = tip)
      ∧ (|g.lower - g.upper| ≤ r → tip = p)
      ∧ ∀ {k : Nat} (v : Position ℝ k), v.x = p.x → v.y = p.y →
        ∃ j, g.joints v = .ok j ∧ g.position j = ⟨tip.x, tip.y, v.carried⟩ := by
  intro r b R tip
  have hr : ‖p.toComplex‖ = r := p.norm_toComplex
  obtain ⟨q, hq, htip⟩ := forward_of_inverse (hr.le.trans h)
  rw [hr] at htip
  refine ⟨⟨q, hq, htip⟩, fun hout => ?_, fun v hx hy => ?_⟩
  · apply Planar.toComplex_injective
    show (Planar.polar (max r |g.lower - g.upper|) (Complex.arg p.toComplex)).toComplex = _
    rw [max_eq_left hout, Planar.toComplex_polar, ← hr]
    exact p.toComplex_eq.symm
  · have hsolve : g.joints v = .ok ⟨q.q1, q.q2, v.carried⟩ := by
      unfold joints
      rw [hx, hy, hq]
      rfl
    refine ⟨_, hsolve, ?_⟩
    show (⟨⟨(g.forward q).x, (g.forward q).y, v.carried⟩⟩ : Position ℝ _) = _
    rw [htip]
    rfl

/-- A point in the hole is put out to its edge. -/
theorem forward_inverse_in_the_hole :
    √((1 : ℝ) ^ 2 + 0 ^ 2) ≤ holed.lower + holed.upper
      ∧ ∃ q, holed.inverse ⟨1, 0⟩ = .ok q ∧ holed.forward q = ⟨2, 0⟩ := by
  have hr : √((1 : ℝ) ^ 2 + 0 ^ 2) = 1 := by norm_num
  have hin : √((1 : ℝ) ^ 2 + 0 ^ 2) ≤ holed.lower + holed.upper := by
    rw [hr]
    show (1 : ℝ) ≤ 3 + 1
    norm_num
  obtain ⟨⟨q, hq, htip⟩, -⟩ := forward_inverse (p := ⟨1, 0⟩) hin
  have hb : Scalar.atan2 (0 : ℝ) 1 = 0 := Complex.arg_one
  have hR : max √((1 : ℝ) ^ 2 + 0 ^ 2) |holed.lower - holed.upper| = 2 := by
    rw [hr]
    show max (1 : ℝ) |3 - 1| = 2
    norm_num
  refine ⟨hin, q, hq, ?_⟩
  rw [htip]
  simp only [hb, hR, cos_zero, sin_zero, mul_one, mul_zero]

/-! ## From the angles back -/

/-- The elbow is turned to the side the arm is built for, whole turns left out of account. -/
def OnBranch (g : Geometry ℝ) (q : JointPair ℝ) : Prop :=
  ∃ n : ℤ, match g.elbow with
    | .up => g.relativeAngle q + 360 * n ∈ Set.Icc (-180) 0
    | .down => g.relativeAngle q + 360 * n ∈ Set.Icc 0 180

/-- On the branch the turn is a bend of the arm's own side. -/
theorem OnBranch.exists_bend (h : g.OnBranch q) :
    ∃ (n : ℤ) (bend : ℝ), bend ∈ Set.Icc 0 π
      ∧ Scalar.toRadians (g.relativeAngle q) + n * (2 * π) = g.elbow.side * bend := by
  obtain ⟨n, hn⟩ := h
  have hturn := Scalar.toRadians_add_turns (g.relativeAngle q) n
  cases he : g.elbow with
  | up =>
    rw [he] at hn
    obtain ⟨hlow, hhigh⟩ := hn
    have hmem : -(g.relativeAngle q + 360 * n) ∈ Set.Icc (0 : ℝ) 180 :=
      ⟨neg_nonneg.mpr hhigh, neg_le.mp hlow⟩
    refine ⟨n, _, Scalar.toRadians_mem hmem, ?_⟩
    rw [← hturn, Scalar.toRadians_neg]
    show _ = -1 * -_
    rw [neg_one_mul, neg_neg]
  | down =>
    rw [he] at hn
    refine ⟨n, _, Scalar.toRadians_mem hn, ?_⟩
    rw [← hturn]
    exact (one_mul _).symm

theorem norm_toComplex_forward (g : Geometry ℝ) (q : JointPair ℝ) :
    ‖(g.forward q).toComplex‖ = ‖g.bent (Scalar.toRadians (g.relativeAngle q))‖ := by
  rw [toComplex_forward, norm_mul, Circle.norm_coe, one_mul]

/-- The bent arm is nowhere inside of the hole and nowhere out of reach. -/
theorem norm_bent_mem (g : Geometry ℝ) (turn : ℝ) :
    ‖g.bent turn‖ ∈ Set.Icc |g.lower - g.upper| (g.lower + g.upper) := by
  have hl := g.lower_pos'
  have hu := g.upper_pos'
  have hsq := g.sq_norm_bent turn
  have hlu : 0 < g.lower * g.upper := mul_pos hl hu
  constructor
  · apply abs_le_of_sq_le_sq _ (norm_nonneg _)
    nlinarith [neg_one_le_cos turn]
  · apply le_of_sq_le_sq _ (by positivity)
    nlinarith [cos_le_one turn]

section Branch

variable {n : ℤ} {bend : ℝ}
  (hturn : Scalar.toRadians (g.relativeAngle q) + n * (2 * π) = g.elbow.side * bend)

include hturn

theorem norm_toComplex_forward_of_bend : ‖(g.forward q).toComplex‖ = ‖g.bent bend‖ := by
  rw [norm_toComplex_forward, ← bent_add_turns, hturn, norm_bent_side]

/-- On the branch inverse kinematics bends the elbow as it was. -/
theorem inverse_of_bend (hbend : bend ∈ Set.Icc 0 π) :
    g.inverse (g.forward q) = .ok (g.pose
      (Complex.arg (g.forward q).toComplex - g.elbow.side * Complex.arg (g.bent bend))
      (Scalar.toRadians (g.relativeAngle q) + n * (2 * π))) := by
  have hnorm := norm_toComplex_forward_of_bend hturn
  have hsame : g.bend (‖g.bent bend‖ ^ 2) = bend := by
    unfold Geometry.bend
    rw [elbowCosine_sq_norm_bent, arccos_cos hbend.1 hbend.2]
  have hin : ‖(g.forward q).toComplex‖ ≤ g.lower + g.upper := by
    rw [hnorm]
    exact (g.norm_bent_mem bend).2
  rw [inverse_of_norm_le g hin, hnorm, hsame, hturn]

/-- And, away from the base, it turns the lower link to where it was. -/
theorem direction_of_bend (hbase : (g.forward q).toComplex ≠ 0) :
    ∃ m : ℤ, Complex.arg (g.forward q).toComplex - g.elbow.side * Complex.arg (g.bent bend)
      = Scalar.toRadians q.q1 + m * (2 * π) := by
  have hnorm := norm_toComplex_forward_of_bend hturn
  have hbent : g.bent (Scalar.toRadians (g.relativeAngle q))
      = ‖g.bent bend‖ * Circle.exp (g.elbow.side * Complex.arg (g.bent bend)) := by
    rw [← bent_add_turns, hturn, bent_side]
  have hne : (‖g.bent bend‖ : ℂ) ≠ 0 := by
    rw [← hnorm, Complex.ofReal_ne_zero]
    exact norm_ne_zero_iff.mpr hbase
  rw [← Circle.exp_eq_exp, Circle.exp_sub, div_eq_iff_eq_mul]
  apply Circle.ext
  apply mul_left_cancel₀ hne
  -- both are the tip
  calc (‖g.bent bend‖ : ℂ) * Circle.exp (Complex.arg (g.forward q).toComplex)
      = (g.forward q).toComplex := by rw [← hnorm, ← Planar.toComplex_eq]
    _ = Circle.exp (Scalar.toRadians q.q1) * g.bent (Scalar.toRadians (g.relativeAngle q)) :=
        g.toComplex_forward q
    _ = ‖g.bent bend‖ * (Circle.exp (Scalar.toRadians q.q1)
          * Circle.exp (g.elbow.side * Complex.arg (g.bent bend)) : Circle) := by
        rw [hbent, Circle.coe_mul]
        ring

end Branch

/-- **Inverse kinematics undoes forward kinematics on the arm's own branch.** On the other
branch it finds other angles of the same tip. -/
theorem inverse_forward (g : Geometry ℝ) (q : JointPair ℝ) :
    ∃ q', g.inverse (g.forward q) = .ok q' ∧ g.forward q' = g.forward q
      ∧ (g.OnBranch q → g.forward q ≠ ⟨0, 0⟩ →
        ∃ m n : ℤ, q'.q1 = q.q1 + 360 * m ∧ q'.q2 = q.q2 + 360 * n) := by
  have hmem := g.norm_bent_mem (Scalar.toRadians (g.relativeAngle q))
  rw [← norm_toComplex_forward] at hmem
  obtain ⟨q', hq', htip⟩ := forward_of_inverse hmem.2
  refine ⟨q', hq', ?_, ?_⟩
  · -- a tip is never inside of the hole
    apply Planar.toComplex_injective
    rw [htip, max_eq_left hmem.1, Planar.toComplex_polar]
    exact (g.forward q).toComplex_eq.symm
  · intro hbranch hbase
    have hne : (g.forward q).toComplex ≠ 0 := fun h => hbase (Planar.toComplex_injective h)
    obtain ⟨n, bend, hbend, hturn⟩ := hbranch.exists_bend
    obtain ⟨m, hm⟩ := direction_of_bend hturn hne
    have hsolved := inverse_of_bend hturn hbend
    rw [hm] at hsolved
    obtain ⟨m', n', hpose⟩ := g.pose_add_turns q m n
    have hq : q' = ⟨q.q1 + 360 * m', q.q2 + 360 * n'⟩ :=
      Except.ok.inj (hq'.symm.trans (hsolved.trans (congrArg _ hpose)))
    refine ⟨m', n', ?_, ?_⟩
    · rw [hq]
    · rw [hq]

/-- An elbow turned up by a quarter comes back, in whatever turn it was. -/
theorem inverse_forward_of_a_quarter :
    ∃ q', holed.inverse (holed.forward ⟨0, 270⟩) = .ok q'
      ∧ ∃ m n : ℤ, q'.q1 = 0 + 360 * m ∧ q'.q2 = 270 + 360 * n := by
  obtain ⟨q', hq', -, hback⟩ := inverse_forward holed ⟨0, 270⟩
  have hbranch : holed.OnBranch ⟨0, 270⟩ := by
    refine ⟨-1, ?_⟩
    show (270 - 0 : ℝ) + 360 * ((-1 : ℤ) : ℝ) ∈ Set.Icc (-180) 0
    norm_num
  have hbase : holed.forward ⟨0, 270⟩ ≠ ⟨0, 0⟩ := by
    intro h
    have hedge := (holed.norm_bent_mem (Scalar.toRadians (holed.relativeAngle ⟨0, 270⟩))).1
    have hzero : Planar.toComplex ⟨0, 0⟩ = 0 := rfl
    rw [← norm_toComplex_forward, h, hzero, norm_zero] at hedge
    have hhole : |(3 : ℝ) - 1| ≤ 0 := hedge
    norm_num at hhole
  exact ⟨q', hq', hback hbranch hbase⟩

end Geometry

end ScaraArm
