import ScaraArm.Proofs.Real.RoundTrip
import ScaraArm.Proofs.Real.Swing

/-!
# The two solutions of a point

An arm that bends its elbow up and one that bends it down reach a point in two poses, and a
wrong sign in one of them would go unnoticed at the tip. What the poses have to do with each
other is read off the angles themselves. Both are made of three numbers that do not know of the
elbow: the bearing of the point, the shoulder, and the bend. The elbow only says on which side
of the line to the point the shoulder and the bend are taken, so the poses are mirror images
about that line.

Mirrored about the first axis, a point has the opposite bearing and the same shoulder and bend,
so there the one elbow takes the opposite of the other's angles. The half line behind the base
is its own mirror image, and has half a turn for its bearing on both sides: there the mirrored
lower links are a whole turn apart.
-/

namespace ScaraArm

open Real

/-- The point on the other side of the first axis. -/
def Planar.mirrored (p : Planar ℝ) : Planar ℝ := ⟨p.x, -p.y⟩

namespace Planar

variable {p : Planar ℝ}

theorem toComplex_mirrored (p : Planar ℝ) :
    p.mirrored.toComplex = (starRingEnd ℂ) p.toComplex := rfl

theorem norm_mirrored (p : Planar ℝ) : ‖p.mirrored.toComplex‖ = ‖p.toComplex‖ := by
  rw [toComplex_mirrored, RCLike.norm_conj]

/-- Only behind the base a bearing is half a turn. -/
theorem bearing_eq_pi_iff : Complex.arg p.toComplex = π ↔ p.y = 0 ∧ p.x < 0 :=
  Complex.arg_eq_pi_iff.trans and_comm

/-- Anywhere else the mirrored point has the opposite bearing. -/
theorem bearing_mirrored (h : ¬ (p.y = 0 ∧ p.x < 0)) :
    Complex.arg p.mirrored.toComplex = -Complex.arg p.toComplex := by
  rw [toComplex_mirrored, Complex.arg_conj, if_neg (mt bearing_eq_pi_iff.mp h)]

end Planar

namespace Geometry

/-- The same links, on a given branch and measured in a given way. -/
def onBranch (g : Geometry ℝ) (e : Elbow) (c : AngleConvention) : Geometry ℝ :=
  { g with elbow := e, convention := c }

/-- The pose that an elbow and a convention make of a bearing, a shoulder and a bend. -/
noncomputable def sided (g : Geometry ℝ) (e : Elbow) (c : AngleConvention)
    (bearing shoulder bend : ℝ) : JointPair ℝ :=
  (g.onBranch e c).pose (bearing - e.side * shoulder) (e.side * bend)

variable (g : Geometry ℝ) {p : Planar ℝ} (e : Elbow) (c : AngleConvention)
  (bearing shoulder bend : ℝ)

/-- **On every branch the pose is made of the same three numbers.** -/
theorem inverse_onBranch (h : ‖p.toComplex‖ ≤ g.lower + g.upper) :
    (g.onBranch e c).inverse p
      = .ok (g.sided e c (Complex.arg p.toComplex) (g.shoulder ‖p.toComplex‖)
        (g.bend (‖p.toComplex‖ ^ 2))) :=
  (g.onBranch e c).inverse_of_norm_le h

theorem sided_q1 : (g.sided e c bearing shoulder bend).q1
    = Scalar.toDegrees bearing - e.side * Scalar.toDegrees shoulder := by
  show Scalar.toDegrees (bearing - e.side * shoulder) = _
  simp only [Scalar.toDegrees_eq]
  ring

theorem sided_q2_relative : (g.sided e .relative bearing shoulder bend).q2
    = e.side * Scalar.toDegrees bend := by
  show Scalar.toDegrees (e.side * bend) = _
  simp only [Scalar.toDegrees_eq]
  ring

/-- Measured in the world, the upper link is turned on from the lower one. -/
theorem sided_q2_absolute : (g.sided e .absolute bearing shoulder bend).q2
    = (g.sided e c bearing shoulder bend).q1 + e.side * Scalar.toDegrees bend := by
  show Scalar.toDegrees (bearing - e.side * shoulder + e.side * bend)
    = Scalar.toDegrees (bearing - e.side * shoulder) + _
  simp only [Scalar.toDegrees_eq]
  ring

/-- **The opposite bearing on the opposite side is the opposite pose.** -/
theorem sided_mirrored : g.sided .down c (-bearing) shoulder bend
    = ⟨-(g.sided .up c bearing shoulder bend).q1, -(g.sided .up c bearing shoulder bend).q2⟩ := by
  have hq1 : (g.sided .down c (-bearing) shoulder bend).q1
      = -(g.sided .up c bearing shoulder bend).q1 := by
    simp only [sided_q1, Elbow.side, Scalar.toDegrees_eq]
    ring
  have hq2 : (g.sided .down c (-bearing) shoulder bend).q2
      = -(g.sided .up c bearing shoulder bend).q2 := by
    cases c with
    | relative =>
      simp only [sided_q2_relative, Elbow.side]
      ring
    | absolute =>
      rw [g.sided_q2_absolute .down .absolute, g.sided_q2_absolute .up .absolute, hq1]
      simp only [Elbow.side]
      ring
  rw [← hq1, ← hq2]

theorem toDegrees_mem {x : ℝ} (h : x ∈ Set.Icc 0 π) : Scalar.toDegrees x ∈ Set.Icc 0 180 := by
  have hpi := pi_pos
  rw [Scalar.toDegrees_eq]
  constructor
  · exact mul_nonneg h.1 (by positivity)
  · calc x * (180 / π) ≤ π * (180 / π) := by gcongr; exact h.2
      _ = 180 := by field_simp

/--
**The two solutions of a point are mirror images about the line to it.**

A point within reach is solved on every branch and in both conventions. The lower links of the
two elbows are turned away from the line to the point by one and the same angle, between none
and half a turn, the elbow that is up turning it on. Relative to them the upper links are bent by
opposite angles, and measured in the world they differ from them by just that bend. Unless the
point lies behind the base, the point mirrored about the first axis is solved on the other
branch by the opposite angles; behind the base the lower links are a whole turn apart.
-/
theorem solutions_mirrored (h : √(p.x ^ 2 + p.y ^ 2) ≤ g.lower + g.upper) :
    let b := Scalar.toDegrees (Scalar.atan2 p.y p.x)
    ∃ q : Elbow → AngleConvention → JointPair ℝ,
      (∀ e c, (g.onBranch e c).inverse p = .ok (q e c))
        ∧ (∀ c c', (q .up c).q1 - b = b - (q .down c').q1 ∧ (q .up c).q1 - b ∈ Set.Icc 0 180)
        ∧ (q .up .relative).q2 = -(q .down .relative).q2
        ∧ (q .up .relative).q2 ∈ Set.Icc (-180) 0
        ∧ (∀ e, (q e .absolute).q2 - (q e .absolute).q1 = (q e .relative).q2)
        ∧ (¬ (p.y = 0 ∧ p.x < 0) → ∀ c,
            (g.onBranch .down c).inverse ⟨p.x, -p.y⟩ = .ok ⟨-(q .up c).q1, -(q .up c).q2⟩)
        ∧ (p.y = 0 ∧ p.x < 0 → ∀ c c', (q .down c).q1 = -(q .up c').q1 + 360) := by
  intro b
  have hnorm : ‖p.toComplex‖ ≤ g.lower + g.upper := p.norm_toComplex.le.trans h
  have hb : b = Scalar.toDegrees (Complex.arg p.toComplex) := rfl
  have hshoulder := toDegrees_mem ⟨g.shoulder_nonneg ‖p.toComplex‖, g.shoulder_le_pi ‖p.toComplex‖⟩
  have hbend := toDegrees_mem (g.bend_mem (‖p.toComplex‖ ^ 2))
  refine ⟨_, fun e c => g.inverse_onBranch e c hnorm, fun c c' => ⟨?_, ?_⟩, ?_, ?_, fun e => ?_,
    fun hfront c => ?_, fun hbehind c c' => ?_⟩
  · simp only [sided_q1, Elbow.side, hb]
    ring
  · have hup : (g.sided .up c (Complex.arg p.toComplex) (g.shoulder ‖p.toComplex‖)
        (g.bend (‖p.toComplex‖ ^ 2))).q1 - b = Scalar.toDegrees (g.shoulder ‖p.toComplex‖) := by
      rw [sided_q1, hb, Elbow.side]
      ring
    rw [hup]
    exact hshoulder
  · simp only [sided_q2_relative, Elbow.side]
    ring
  · rw [sided_q2_relative, Elbow.side, neg_one_mul]
    exact ⟨neg_le_neg hbend.2, neg_nonpos.mpr hbend.1⟩
  · rw [g.sided_q2_absolute e .absolute, sided_q2_relative, add_sub_cancel_left]
  · have hmirrored : ‖p.mirrored.toComplex‖ ≤ g.lower + g.upper := by rwa [Planar.norm_mirrored]
    have hsolved := g.inverse_onBranch .down c hmirrored
    rw [Planar.norm_mirrored, Planar.bearing_mirrored hfront, sided_mirrored] at hsolved
    exact hsolved
  · have hturn : Scalar.toDegrees π = 180 := by
      rw [Scalar.toDegrees_eq]
      field_simp
    simp only [sided_q1, Elbow.side, Planar.bearing_eq_pi_iff.mpr hbehind, hturn]
    ring

/-- A point in the hole, off the first axis, and its mirror image. -/
theorem solutions_mirrored_in_the_hole :
    √((0 : ℝ) ^ 2 + 1 ^ 2) ≤ holed.lower + holed.upper
      ∧ ∃ q, (holed.onBranch .up .absolute).inverse ⟨0, 1⟩ = .ok q
        ∧ (holed.onBranch .down .absolute).inverse ⟨0, -1⟩ = .ok ⟨-q.q1, -q.q2⟩ := by
  have hin : √((0 : ℝ) ^ 2 + 1 ^ 2) ≤ holed.lower + holed.upper := by
    have hr : √((0 : ℝ) ^ 2 + 1 ^ 2) = 1 := by norm_num
    rw [hr]
    show (1 : ℝ) ≤ 3 + 1
    norm_num
  obtain ⟨q, hq, -, -, -, -, hmirrored, -⟩ := holed.solutions_mirrored (p := ⟨0, 1⟩) hin
  exact ⟨hin, q .up .absolute, hq .up .absolute, hmirrored (by norm_num) .absolute⟩

end Geometry

end ScaraArm
