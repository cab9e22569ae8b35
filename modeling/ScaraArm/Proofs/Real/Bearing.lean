import ScaraArm.Proofs.Real.Reach

/-!
# The bearing along a line

A bearing is an angle between minus half a turn and half a turn, so it jumps by a whole turn
where the half line behind the base is crossed (`CrossesDown`), and nowhere else.

Taken together, a step of the bearing and the turns it lost on the way are the angle under which
the base sees the piece (`swing`). That angle is at most half a turn: a straight piece never goes
round the base. The proof looks at its sine, which has the sign of the triangle of the base and
the two ends. Its cosine is in the law of cosines.
-/

namespace ScaraArm

open Real

variable {k : Nat}

namespace Position

variable {p q : Position ℝ k}

/-- Where the tip is seen from the base. -/
noncomputable def bearing (p : Position ℝ k) : ℝ := Complex.arg p.tip

/-- The straight way crosses the negative half of the first axis, coming from above. -/
def CrossesDown (p q : Position ℝ k) : Prop :=
  0 ≤ p.y ∧ q.y < 0 ∧ ∃ t ∈ Set.Icc (0 : ℝ) 1, (p.between q t).y = 0 ∧ (p.between q t).x < 0

/-- The way crosses there exactly if its ends are around the base in this order. -/
theorem crossesDown_iff : p.CrossesDown q ↔ 0 ≤ p.y ∧ q.y < 0 ∧ p.y * q.x < p.x * q.y := by
  refine and_congr_right fun hp => and_congr_right fun hq => ?_
  have hfall : 0 < p.y - q.y := by linarith
  simp only [x_between, y_between]
  constructor
  · rintro ⟨t, -, hy, hx⟩
    -- the crossing is as far below `p` as `p` is above the axis
    have ht : t * (p.y - q.y) = p.y := by linarith
    have hscaled : (p.x + t * (q.x - p.x)) * (p.y - q.y) = p.y * q.x - p.x * q.y := by
      linear_combination (q.x - p.x) * ht
    have := mul_neg_of_neg_of_pos hx hfall
    linarith
  · intro hcross
    refine ⟨p.y / (p.y - q.y), ⟨by positivity, ?_⟩, ?_, ?_⟩
    · rw [div_le_one hfall]
      linarith
    · field_simp
      ring
    · have hx : p.x + p.y / (p.y - q.y) * (q.x - p.x)
          = (p.y * q.x - p.x * q.y) / (p.y - q.y) := by
        field_simp
        ring
      rw [hx]
      exact div_neg_of_neg_of_pos (by linarith) hfall

theorem CrossesDown.not_back (h : p.CrossesDown q) : ¬ q.CrossesDown p := fun hback =>
  absurd hback.1 (not_le.mpr h.2.1)

open Classical in
/-- How many turns the bearing loses on the straight way. -/
noncomputable def turns (p q : Position ℝ k) : ℤ :=
  if p.CrossesDown q then 1 else if q.CrossesDown p then -1 else 0

theorem turns_of_down (h : p.CrossesDown q) : p.turns q = 1 := if_pos h

theorem turns_of_up (h : q.CrossesDown p) : p.turns q = -1 := by
  unfold turns
  rw [if_neg h.not_back, if_pos h]

theorem turns_of_not_crossing (hdown : ¬ p.CrossesDown q) (hup : ¬ q.CrossesDown p) :
    p.turns q = 0 := by
  unfold turns
  rw [if_neg hdown, if_neg hup]

theorem turns_comm (p q : Position ℝ k) : q.turns p = -p.turns q := by
  by_cases hdown : p.CrossesDown q
  · rw [turns_of_down hdown, turns_of_up hdown]
  by_cases hup : q.CrossesDown p
  · rw [turns_of_down hup, turns_of_up hup, neg_neg]
  · rw [turns_of_not_crossing hdown hup, turns_of_not_crossing hup hdown, neg_zero]

/-- The angle under which the base sees the straight way. -/
noncomputable def swing (p q : Position ℝ k) : ℝ :=
  q.bearing - p.bearing + p.turns q * ((2 : ℕ) * π)

theorem swing_eq (p q : Position ℝ k) :
    p.swing q = q.bearing - p.bearing + p.turns q * (2 * π) := by
  rw [swing, Nat.cast_ofNat]

theorem swing_comm (p q : Position ℝ k) : q.swing p = -p.swing q := by
  rw [swing_eq, swing_eq, turns_comm, Int.cast_neg]
  ring

/-! ## Sine and cosine of a step of the bearing -/

theorem norm_mul_cos_bearing (p : Position ℝ k) : ‖p.tip‖ * cos p.bearing = p.x :=
  Complex.norm_mul_cos_arg p.tip

theorem norm_mul_sin_bearing (p : Position ℝ k) : ‖p.tip‖ * sin p.bearing = p.y :=
  Complex.norm_mul_sin_arg p.tip

theorem sin_step (p q : Position ℝ k) :
    ‖p.tip‖ * ‖q.tip‖ * sin (q.bearing - p.bearing) = p.x * q.y - p.y * q.x := by
  rw [sin_sub, ← norm_mul_cos_bearing p, ← norm_mul_sin_bearing p, ← norm_mul_cos_bearing q,
    ← norm_mul_sin_bearing q]
  ring

theorem cos_swing (p q : Position ℝ k) :
    ‖p.tip‖ * ‖q.tip‖ * cos (p.swing q) = p.x * q.x + p.y * q.y := by
  rw [swing_eq, cos_add_int_mul_two_pi, cos_sub, ← norm_mul_cos_bearing p, ← norm_mul_sin_bearing p,
    ← norm_mul_cos_bearing q, ← norm_mul_sin_bearing q]
  ring

/-- The law of cosines. -/
theorem sq_planarDist (p q : Position ℝ k) :
    p.planarDist q ^ 2
      = ‖p.tip‖ ^ 2 + ‖q.tip‖ ^ 2 - 2 * ‖p.tip‖ * ‖q.tip‖ * cos (p.swing q) := by
  have hcos := cos_swing p q
  have hp : ‖p.tip‖ ^ 2 = p.x * p.x + p.y * p.y := Planar.sq_norm_toComplex _
  have hq : ‖q.tip‖ ^ 2 = q.x * q.x + q.y * q.y := Planar.sq_norm_toComplex _
  unfold planarDist
  rw [sq_sqrt (by positivity), hp, hq]
  linear_combination 2 * hcos

/-- Turned by the swing, one end of the way has the bearing of the other. -/
theorem tip_swing (p q : Position ℝ k) :
    ‖p.tip‖ * q.tip = ‖q.tip‖ * (Circle.exp (p.swing q) * p.tip) := by
  have hp : p.tip = ‖p.tip‖ * Circle.exp p.bearing := Planar.toComplex_eq _
  have hq : q.tip = ‖q.tip‖ * Circle.exp q.bearing := Planar.toComplex_eq _
  have hturn : Circle.exp (p.swing q) * Circle.exp p.bearing = Circle.exp q.bearing := by
    rw [swing_eq, ← Circle.exp_add, Circle.exp_eq_exp]
    exact ⟨p.turns q, by ring⟩
  have hturn : (Circle.exp (p.swing q) : ℂ) * Circle.exp p.bearing = Circle.exp q.bearing := by
    rw [← Circle.coe_mul, hturn]
  calc (‖p.tip‖ : ℂ) * q.tip
      = ‖p.tip‖ * (‖q.tip‖ * Circle.exp q.bearing) := by rw [← hq]
    _ = ‖q.tip‖ * (Circle.exp (p.swing q) * (‖p.tip‖ * Circle.exp p.bearing)) := by
        rw [← hturn]
        ring
    _ = ‖q.tip‖ * (Circle.exp (p.swing q) * p.tip) := by rw [← hp]

/-! ## The base never sees more than half a turn -/

theorem bearing_le_pi (p : Position ℝ k) : p.bearing ≤ π := Complex.arg_le_pi p.tip

theorem neg_pi_lt_bearing (p : Position ℝ k) : -π < p.bearing := Complex.neg_pi_lt_arg p.tip

theorem bearing_nonneg (h : 0 ≤ p.y) : 0 ≤ p.bearing := Complex.arg_nonneg_iff.mpr h

theorem bearing_neg (h : p.y < 0) : p.bearing < 0 := Complex.arg_neg_iff.mpr h

/-- A way from above the axis to below it that does not cross behind the base turns back by at
most half a turn. -/
theorem neg_pi_le_step (hp : 0 ≤ p.y) (hq : q.y < 0) (hcross : ¬ p.CrossesDown q) :
    -π ≤ q.bearing - p.bearing := by
  by_contra hfar
  push Not at hfar
  -- then the sine of the step is positive, and the ends are around the base in this order
  have hsin : 0 < sin (q.bearing - p.bearing + 2 * π) :=
    sin_pos_of_pos_of_lt_pi (by linarith [neg_pi_lt_bearing q, bearing_le_pi p]) (by linarith)
  rw [sin_add_two_pi] at hsin
  have htri := sin_step p q
  have hbase : 0 < ‖q.tip‖ := norm_pos_iff.mpr fun h => hq.ne (congrArg Complex.im h)
  have hside : p.x * q.y - p.y * q.x ≤ 0 := by
    by_contra hside
    exact hcross (crossesDown_iff.mpr ⟨hp, hq, by linarith⟩)
  have hstart : ‖p.tip‖ = 0 := by
    by_contra hstart
    have hpos : 0 < ‖p.tip‖ := lt_of_le_of_ne (norm_nonneg _) (Ne.symm hstart)
    have : 0 < ‖p.tip‖ * ‖q.tip‖ * sin (q.bearing - p.bearing) := by positivity
    linarith
  -- seen from the base itself the bearing is zero
  have hzero : p.bearing = 0 := by
    unfold bearing
    rw [norm_eq_zero.mp hstart, Complex.arg_zero]
  linarith [neg_pi_lt_bearing q]

/-- A way that crosses behind the base, coming from above, turns on by at most half a turn. -/
theorem step_lt_of_crossesDown (h : p.CrossesDown q) : q.bearing - p.bearing < -π := by
  obtain ⟨hp, hq, hcross⟩ := crossesDown_iff.mp h
  have hp := bearing_nonneg hp
  have hq := bearing_neg hq
  by_contra hnear
  push Not at hnear
  have hsin : sin (q.bearing - p.bearing) ≤ 0 :=
    sin_nonpos_of_nonpos_of_neg_pi_le (by linarith) hnear
  have htri := sin_step p q
  have : ‖p.tip‖ * ‖q.tip‖ * sin (q.bearing - p.bearing) ≤ 0 :=
    mul_nonpos_of_nonneg_of_nonpos (by positivity) hsin
  linarith

/-- **The base sees a straight way under at most half a turn.** -/
theorem abs_swing_le (p q : Position ℝ k) : |p.swing q| ≤ π := by
  have hpi := pi_pos
  have hp := p.bearing_le_pi
  have hq := q.bearing_le_pi
  have hp' := p.neg_pi_lt_bearing
  have hq' := q.neg_pi_lt_bearing
  rw [swing_eq, abs_le]
  by_cases hdown : p.CrossesDown q
  · have hstep := step_lt_of_crossesDown hdown
    rw [turns_of_down hdown, Int.cast_one]
    constructor <;> linarith
  by_cases hup : q.CrossesDown p
  · have hstep := step_lt_of_crossesDown hup
    rw [turns_of_up hup, Int.cast_neg, Int.cast_one]
    constructor <;> linarith
  rw [turns_of_not_crossing hdown hup, Int.cast_zero, zero_mul, add_zero]
  rcases le_or_gt 0 p.y with hpy | hpy <;> rcases le_or_gt 0 q.y with hqy | hqy
  · have := bearing_nonneg hpy
    have := bearing_nonneg hqy
    constructor <;> linarith
  · have := bearing_nonneg hpy
    have := bearing_neg hqy
    exact ⟨neg_pi_le_step hpy hqy hdown, by linarith⟩
  · have := bearing_neg hpy
    have := neg_pi_le_step hqy hpy hup
    have := bearing_nonneg hqy
    constructor <;> linarith
  · have := bearing_neg hpy
    have := bearing_neg hqy
    constructor <;> linarith

end Position

end ScaraArm
