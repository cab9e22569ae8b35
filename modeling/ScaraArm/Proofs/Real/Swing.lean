import ScaraArm.Proofs.Line.Collected
import ScaraArm.Proofs.Real.Bearing

/-!
# How far the lower link swings

Each waypoint of a line is solved on its own, so how far the lower link turns from one to the
next has to be read off two solutions. Three things are in it: the angle under which the base
sees the piece, the change of the angle that the lower link makes with the line to the tip
(`shoulder`), and a whole turn if the piece crosses the half line behind the base.

The first is at most half a turn. The second has to be weighed against it. Where the links are
as good as equal and the piece runs through the base, they add up to more than half a turn. But
if a piece is short against the hole around the base they do not: a swing of nearly half a turn
then has the base close by, where the arm is folded up and the shoulder does not change. With a
lower link that is the longer one it is enough that the piece is seen under less than a right
angle.

The third is not weighed against anything. A line across the half line behind the base turns the
lower link the long way round.
-/

namespace ScaraArm

open Real

variable {k : Nat}

namespace Geometry

variable (g : Geometry ℝ)

/-- The angle at the base between the lower link and the line to a tip at the given distance. -/
noncomputable def shoulder (r : ℝ) : ℝ := Complex.arg (g.bent (g.bend (r ^ 2)))

variable {g} {r r' h θ : ℝ}

theorem bend_mem (squared : ℝ) : g.bend squared ∈ Set.Icc 0 π :=
  ⟨arccos_nonneg _, arccos_le_pi _⟩

theorem shoulder_le_pi (r : ℝ) : g.shoulder r ≤ π := Complex.arg_le_pi _

theorem shoulder_nonneg (r : ℝ) : 0 ≤ g.shoulder r := by
  have hbend := g.bend_mem (r ^ 2)
  unfold shoulder
  rw [Complex.arg_nonneg_iff, bent_eq]
  exact mul_nonneg g.upper_pos'.le (sin_nonneg_of_mem_Icc hbend)

/-- A longer lower link never points away from the tip. -/
theorem shoulder_le_half (hlinks : g.upper ≤ g.lower) (r : ℝ) : g.shoulder r ≤ π / 2 := by
  have hu := g.upper_pos'
  have hcos := neg_one_le_cos (g.bend (r ^ 2))
  refine (abs_le.mp (Complex.abs_arg_le_pi_div_two_iff.mpr ?_)).2
  rw [bent_eq]
  show 0 ≤ g.lower + g.upper * cos (g.bend (r ^ 2))
  have := mul_le_mul_of_nonneg_left hcos hu.le
  linarith

/-- In the hole the arm is folded up. -/
theorem bent_of_hole (hr : 0 ≤ r) (hhole : r ≤ |g.lower - g.upper|) :
    g.bent (g.bend (r ^ 2)) = ((g.lower - g.upper : ℝ) : ℂ) := by
  have hl := g.lower_pos'
  have hu := g.upper_pos'
  have hsq : r ^ 2 ≤ (g.lower - g.upper) ^ 2 := sq_le_sq.mpr (by rwa [abs_of_nonneg hr])
  have hcos : cos (g.bend (r ^ 2)) = -1 := by
    rw [cos_bend, elbowCosine_eq]
    refine max_eq_left ((min_le_left _ _).trans ?_)
    rw [div_le_iff₀ (by positivity)]
    linarith
  have hsin : sin (g.bend (r ^ 2)) = 0 := by
    rw [sin_eq_zero_iff_cos_eq]
    exact Or.inr hcos
  rw [bent_eq, hcos, hsin]
  apply Complex.ext
  · rw [Complex.ofReal_re]
    ring
  · rw [Complex.ofReal_im, mul_zero]

theorem shoulder_of_hole (hlinks : g.upper ≤ g.lower) (hr : 0 ≤ r)
    (hhole : r ≤ g.lower - g.upper) : g.shoulder r = 0 := by
  unfold shoulder
  rw [bent_of_hole hr (hhole.trans (le_abs_self _))]
  exact Complex.arg_ofReal_of_nonneg (by linarith)

theorem shoulder_of_hole' (hlinks : g.lower < g.upper) (hr : 0 ≤ r)
    (hhole : r ≤ g.upper - g.lower) : g.shoulder r = π := by
  unfold shoulder
  rw [bent_of_hole hr (by rwa [abs_sub_comm, abs_of_pos (by linarith)])]
  exact Complex.arg_ofReal_of_neg (by linarith)

/-- Outside of the hole the shoulder is an angle of the triangle of the links. -/
theorem cos_shoulder (hr : 0 ≤ r) (hhole : |g.lower - g.upper| ≤ r)
    (hreach : r ≤ g.lower + g.upper) :
    2 * g.lower * (r * cos (g.shoulder r)) = r ^ 2 + g.lower ^ 2 - g.upper ^ 2 := by
  have hl := g.lower_pos'
  have hu := g.upper_pos'
  have hnorm : ‖g.bent (g.bend (r ^ 2))‖ = r := by
    rw [g.norm_bent_bend hr hreach, max_eq_left hhole]
  have hre : r * cos (g.shoulder r) = g.lower + g.upper * cos (g.bend (r ^ 2)) := by
    have hpolar := Complex.norm_mul_cos_arg (g.bent (g.bend (r ^ 2)))
    rw [hnorm] at hpolar
    unfold shoulder
    rw [hpolar, bent_eq]
  have hsq := g.sq_norm_bent (g.bend (r ^ 2))
  rw [hnorm] at hsq
  rw [hre]
  linear_combination (-1) * hsq

/-! ## Swing and shoulder together -/

/-- A chord from the ring into the hole, of an arm with the longer upper link: if it turns by more
than the shoulder allows, it is longer than the hole is deep or than the ring is wide. -/
theorem chord_of_hole {l u H C : ℝ} (hl : 0 < l) (hlu : l < u) (hr : u - l < r)
    (hreach : r ≤ l + u) (hr' : 0 ≤ r') (hhole : r' ≤ u - l)
    (hturn : 2 * l * (r * C) < r ^ 2 + l ^ 2 - u ^ 2)
    (hH : H = r ^ 2 + r' ^ 2 - 2 * r * r' * C) : (u - l) ^ 2 < H ∨ (2 * l) ^ 2 < H := by
  rcases hr'.eq_or_lt with rfl | hpos
  · left
    have := pow_lt_pow_left₀ hr (by linarith) two_ne_zero
    linarith
  have hlower : l * r ^ 2 + l * r' ^ 2 - r' * (r ^ 2 + l ^ 2 - u ^ 2) < l * H := by
    have := mul_lt_mul_of_pos_left hturn hpos
    rw [hH]
    linarith
  rcases le_or_gt r' l with hnear | hfar
  · -- the chord is longer than the two ways to the base together
    left
    have hr2 : (u - l) ^ 2 * (l - r') ≤ r ^ 2 * (l - r') :=
      mul_le_mul_of_nonneg_right (pow_le_pow_left₀ (by linarith) hr.le 2) (by linarith)
    have hsum : l * (u - l + r') ^ 2 < l * H := by
      linarith
    exact (pow_le_pow_left₀ (by linarith) (by linarith) 2).trans_lt
      (lt_of_mul_lt_mul_left hsum hl.le)
  · -- the chord is longer than the way from the hole to the rim
    right
    have hr2 : (l + u) ^ 2 * (l - r') ≤ r ^ 2 * (l - r') :=
      mul_le_mul_of_nonpos_right (pow_le_pow_left₀ (by linarith) hreach 2) (by linarith)
    have hdiff : l * (l + u - r') ^ 2 < l * H := by
      linarith
    exact (pow_le_pow_left₀ (by linarith) (by linarith) 2).trans_lt
      (lt_of_mul_lt_mul_left hdiff hl.le)

/-- The same of a chord within the ring. -/
theorem chord_of_ring {l u H C : ℝ} (hl : 0 < l) (hlu : l < u) (hr : u - l < r)
    (hreach : r ≤ l + u) (hr' : u - l < r')
    (hturn : 2 * l * (r * C) < r ^ 2 + l ^ 2 - u ^ 2)
    (hturn' : r' ^ 2 + l ^ 2 - u ^ 2 < -(2 * l * (r' * C)))
    (hH : H = r ^ 2 + r' ^ 2 - 2 * r * r' * C) : (u - l) ^ 2 < H ∨ (2 * l) ^ 2 < H := by
  have hpos : 0 < r := by linarith
  have hpos' : 0 < r' := by linarith
  -- how far the tip comes outward is held against how far it swings
  have hout : r' - r < -(2 * l * C) := by
    have : (r + r') * (r' - r) < (r + r') * -(2 * l * C) := by linarith
    exact lt_of_mul_lt_mul_left this (by positivity)
  rcases le_or_gt r r' with hle | hlt
  · left
    have hC : C < 0 := neg_of_mul_neg_right (show 2 * l * C < 0 by linarith) (by positivity)
    have : r * r' * C < 0 := mul_neg_of_pos_of_neg (by positivity) hC
    have := pow_lt_pow_left₀ hr (by linarith) two_ne_zero
    have := sq_nonneg r'
    rw [hH]
    linarith
  · by_contra hshort
    push Not at hshort
    obtain ⟨hd, h2⟩ := hshort
    obtain ⟨δ, rfl⟩ : ∃ δ, r = r' + δ := ⟨r - r', by ring⟩
    have hδ : 0 < δ := by linarith
    have hδ2 : δ < 2 * l := by linarith
    have hprod : (u - l) ^ 2 ≤ (r' + δ) * r' := by
      rw [sq]
      exact mul_le_mul hr.le hr'.le (by linarith) hpos.le
    have hlower : l * δ ^ 2 + (u - l) ^ 2 * (2 * l - δ) < l * H := by
      have hswing : (r' + δ) * r' * -δ < (r' + δ) * r' * -(2 * l * C) :=
        mul_lt_mul_of_pos_left (by linarith) (by positivity)
      have hedge : (u - l) ^ 2 * (2 * l - δ) ≤ (r' + δ) * r' * (2 * l - δ) :=
        mul_le_mul_of_nonneg_right hprod (by linarith)
      rw [hH]
      linarith
    have hhole : l * δ ^ 2 < (u - l) ^ 2 * (δ - l) := by
      have := mul_le_mul_of_nonneg_left hd hl.le
      linarith
    have hlδ : l < δ := by
      by_contra hle
      have : (u - l) ^ 2 * (δ - l) ≤ 0 := mul_nonpos_of_nonneg_of_nonpos (sq_nonneg _) (by linarith)
      have : 0 ≤ l * δ ^ 2 := by positivity
      linarith
    have hedge : (u - l) ^ 2 < l * (2 * l + δ) := by
      have := mul_le_mul_of_nonneg_left h2 hl.le
      have : (u - l) ^ 2 * (2 * l - δ) < l * (2 * l + δ) * (2 * l - δ) := by linarith
      exact lt_of_mul_lt_mul_right this (by linarith)
    have : (u - l) ^ 2 * (δ - l) < l * (2 * l + δ) * (δ - l) :=
      mul_lt_mul_of_pos_right hedge (by linarith)
    have : l ^ 2 * (δ - 2 * l) < 0 := mul_neg_of_pos_of_neg (by positivity) (by linarith)
    linarith

/-- With the longer lower link a swing of a right angle or less is not in question, and a larger
one puts a chord outside of the hole. -/
theorem add_shoulder_le_of_lower {H : ℝ} (hlinks : g.upper ≤ g.lower) (hr' : 0 ≤ r')
    (hr : 0 ≤ r) (hθ : |θ| ≤ π) (hH : H = r ^ 2 + r' ^ 2 - 2 * r * r' * cos θ)
    (hshort : H ≤ (g.lower - g.upper) ^ 2 ∨ 0 < cos θ) :
    θ + g.shoulder r' - g.shoulder r ≤ π := by
  have hpi := pi_pos
  have hfold := g.shoulder_nonneg r
  have hfold' := g.shoulder_le_half hlinks r'
  obtain ⟨-, hθ⟩ := abs_le.mp hθ
  by_contra hfar
  push Not at hfar
  have hcos : cos θ < 0 := cos_neg_of_pi_div_two_lt_of_lt (by linarith) (by linarith)
  rcases hshort with hshort | hsmall
  · have hout : g.lower - g.upper < r' := by
      by_contra hin
      have := shoulder_of_hole hlinks hr' (not_lt.mp hin)
      linarith
    have hcos : r * r' * cos θ ≤ 0 := mul_nonpos_of_nonneg_of_nonpos (by positivity) hcos.le
    have := pow_lt_pow_left₀ hout (by linarith) two_ne_zero
    have := sq_nonneg r
    linarith
  · linarith

/-- With the longer upper link the shoulder goes from half a turn to none across the ring. -/
theorem add_shoulder_le_of_upper {H : ℝ} (hlinks : g.lower < g.upper) (hr : 0 ≤ r) (hr' : 0 ≤ r')
    (hreach : r ≤ g.lower + g.upper) (hreach' : r' ≤ g.lower + g.upper) (hθ : |θ| ≤ π)
    (hH : H = r ^ 2 + r' ^ 2 - 2 * r * r' * cos θ) (hhole : H ≤ (g.upper - g.lower) ^ 2)
    (hring : H ≤ (2 * g.lower) ^ 2) : θ + g.shoulder r' - g.shoulder r ≤ π := by
  have hl := g.lower_pos'
  have hfold := g.shoulder_nonneg r
  have hfold' := g.shoulder_le_pi r'
  obtain ⟨-, hθ⟩ := abs_le.mp hθ
  by_contra hfar
  push Not at hfar
  have hout : g.upper - g.lower < r := by
    by_contra hin
    have := shoulder_of_hole' hlinks hr (not_lt.mp hin)
    linarith
  have habs : |g.lower - g.upper| = g.upper - g.lower := by
    rw [abs_sub_comm, abs_of_pos (by linarith)]
  -- the swing is larger than the shoulder at the start
  have hturn : 2 * g.lower * (r * cos θ) < r ^ 2 + g.lower ^ 2 - g.upper ^ 2 := by
    have hcos : cos θ < cos (g.shoulder r) := cos_lt_cos_of_nonneg_of_le_pi hfold hθ (by linarith)
    rw [← cos_shoulder hr (by rw [habs]; exact hout.le) hreach]
    have : 0 < 2 * g.lower * r := mul_pos (by positivity) (by linarith)
    have := mul_lt_mul_of_pos_left hcos this
    linarith
  have hlong : (g.upper - g.lower) ^ 2 < H ∨ (2 * g.lower) ^ 2 < H := by
    rcases le_or_gt r' (g.upper - g.lower) with hin | hout'
    · exact chord_of_hole hl hlinks hout hreach hr' hin hturn hH
    · -- and larger than what is left of half a turn at the end
      have hcos : cos θ < -cos (g.shoulder r') := by
        rw [← cos_pi_sub]
        exact cos_lt_cos_of_nonneg_of_le_pi (by linarith) hθ (by linarith)
      have hturn' : r' ^ 2 + g.lower ^ 2 - g.upper ^ 2 < -(2 * g.lower * (r' * cos θ)) := by
        rw [← cos_shoulder hr' (by rw [habs]; exact hout'.le) hreach']
        have : 0 < 2 * g.lower * r' := mul_pos (by positivity) (by linarith)
        have := mul_lt_mul_of_pos_left hcos this
        linarith
      exact chord_of_ring hl hlinks hout hreach hout' hturn hturn' hH
  rcases hlong with h | h <;> linarith

/-- The way between two positions is short against the hole of the arm; or the base, with the
longer lower link, sees it under less than a right angle. -/
def Short (g : Geometry ℝ) (p q : Position ℝ k) : Prop :=
  (p.planarDist q ≤ |g.lower - g.upper| ∧ p.planarDist q ≤ (2 : ℕ) * g.lower)
    ∨ (g.upper ≤ g.lower ∧ 0 < p.x * q.x + p.y * q.y)

variable {p q : Position ℝ k}

theorem Short.symm (h : g.Short p q) : g.Short q p := by
  have hdist : q.planarDist p = p.planarDist q := by
    unfold Position.planarDist
    congr 1
    ring
  unfold Short at h ⊢
  rw [hdist, mul_comm q.x, mul_comm q.y]
  exact h

/-- **On a short way swing and shoulder make up half a turn at most.** -/
theorem Short.add_shoulder_le (h : g.Short p q) (hp : g.InDisc p) (hq : g.InDisc q) (hθ : |θ| ≤ π)
    (hcos : cos θ = cos (p.swing q)) :
    θ + g.shoulder ‖q.tip‖ - g.shoulder ‖p.tip‖ ≤ π := by
  have hdist := p.sq_planarDist q
  have hfar : 0 ≤ p.planarDist q := sqrt_nonneg _
  have hp := mem_closedBall_zero_iff.mp (inDisc_iff_mem_closedBall.mp hp)
  have hq := mem_closedBall_zero_iff.mp (inDisc_iff_mem_closedBall.mp hq)
  rw [← hcos] at hdist
  rcases le_or_gt g.upper g.lower with hlinks | hlinks
  · refine add_shoulder_le_of_lower hlinks (norm_nonneg _) (norm_nonneg _) hθ hdist ?_
    rcases h with ⟨hhole, -⟩ | ⟨-, hdot⟩
    · left
      rw [← sq_abs (g.lower - g.upper)]
      exact pow_le_pow_left₀ hfar hhole 2
    · right
      rw [← p.cos_swing q, ← hcos] at hdot
      exact pos_of_mul_pos_right hdot (by positivity)
  · obtain ⟨hhole, hring⟩ := h.resolve_right fun h => absurd h.1 (not_le.mpr hlinks)
    rw [abs_sub_comm, abs_of_pos (sub_pos.mpr hlinks)] at hhole
    rw [Nat.cast_ofNat] at hring
    exact add_shoulder_le_of_upper hlinks (norm_nonneg _) (norm_nonneg _) hp hq hθ hdist
      (pow_le_pow_left₀ hfar hhole 2) (pow_le_pow_left₀ hfar hring 2)

/-- Nor do they with the elbow on the other side, or on the way back. -/
theorem Short.abs_swing_sub_le (h : g.Short p q) (hp : g.InDisc p) (hq : g.InDisc q) :
    |p.swing q - g.elbow.side * (g.shoulder ‖q.tip‖ - g.shoulder ‖p.tip‖)| ≤ π := by
  have hswing := p.abs_swing_le q
  have hneg : |-p.swing q| ≤ π := by rwa [abs_neg]
  have hcos : cos (p.swing q) = cos (q.swing p) := by rw [q.swing_comm p, cos_neg]
  have hon := h.add_shoulder_le hp hq hswing rfl
  have hon' := h.add_shoulder_le hp hq hneg (cos_neg _)
  have hback := h.symm.add_shoulder_le hq hp hswing hcos
  have hback' := h.symm.add_shoulder_le hq hp hneg ((cos_neg _).trans hcos)
  rw [abs_le]
  cases g.elbow with
  | up =>
    show -π ≤ p.swing q - -1 * _ ∧ p.swing q - -1 * _ ≤ π
    constructor <;> linarith
  | down =>
    show -π ≤ p.swing q - 1 * _ ∧ p.swing q - 1 * _ ≤ π
    constructor <;> linarith

/-! ## From one solution to the next -/

/-- The lower link points to the tip, but for the shoulder. -/
theorem q1_eq {j : Joints ℝ k} (hj : g.joints p = .ok j) :
    j.q1 = Scalar.toDegrees (p.bearing - g.elbow.side * g.shoulder ‖p.tip‖) := by
  have hp := inDisc_iff_mem_closedBall.mp (solves_iff_inDisc.mp ⟨j, hj⟩)
  unfold joints at hj
  rw [g.inverse_of_norm_le (mem_closedBall_zero_iff.mp hp)] at hj
  cases hj
  rfl

variable {j j' : Joints ℝ k}

theorem q1_sub_eq (hj : g.joints p = .ok j) (hj' : g.joints q = .ok j') :
    j'.q1 - j.q1 = Scalar.toDegrees
      (q.bearing - p.bearing - g.elbow.side * (g.shoulder ‖q.tip‖ - g.shoulder ‖p.tip‖)) := by
  rw [q1_eq hj, q1_eq hj', ← Scalar.toDegrees_sub]
  congr 1
  ring

/-- **Between two solutions the lower link turns by the swing and by the change of the shoulder,
less the turns that the bearing loses.** -/
theorem q1_sub_eq_swing (hj : g.joints p = .ok j) (hj' : g.joints q = .ok j') :
    j'.q1 - j.q1 = Scalar.toDegrees
        (p.swing q - g.elbow.side * (g.shoulder ‖q.tip‖ - g.shoulder ‖p.tip‖))
      - 360 * p.turns q := by
  have hstep : q.bearing - p.bearing - g.elbow.side * (g.shoulder ‖q.tip‖ - g.shoulder ‖p.tip‖)
      = p.swing q - g.elbow.side * (g.shoulder ‖q.tip‖ - g.shoulder ‖p.tip‖)
        + (-p.turns q : ℤ) * (2 * π) := by
    rw [Position.swing_eq]
    push_cast
    ring
  rw [q1_sub_eq hj hj', hstep, Scalar.toDegrees_add_turns]
  push_cast
  ring

end Geometry

/-- Half a turn is half a turn, in either measure. -/
theorem Scalar.abs_toDegrees_le_iff {x : ℝ} : |toDegrees x| ≤ 180 ↔ |x| ≤ π := by
  have hpi := pi_pos
  have hratio : 0 < 180 / π := by positivity
  rw [toDegrees_eq, abs_mul, abs_of_pos hratio, ← le_div_iff₀ hratio]
  field_simp

namespace Segmenter

variable {s : Segmenter ℝ} {target : Position ℝ k} {joints : Joints ℝ k} {i : Nat}

/-- Where the limit is short against the hole, so are the pieces. -/
theorem short_of_maxLength (hL : 0 < s.maxLength)
    (hcount : (s.geometry.position joints).planarDist target ≤ maxPieces * s.maxLength)
    (hhole : s.maxLength ≤ |s.geometry.lower - s.geometry.upper|)
    (hring : s.maxLength ≤ 2 * s.geometry.lower) (hi : i < (s.start target joints false).iterations) :
    s.geometry.Short
      (s.referencePoint target joints (s.start target joints false).iterations i)
      (s.referencePoint target joints (s.start target joints false).iterations (i + 1)) := by
  have hpiece : (s.geometry.position joints).planarDist target
      / (s.start target joints false).iterations ≤ s.maxLength := by
    have hleast := (isLeast_iterations hL hcount).1
    rw [div_le_iff₀ (Nat.cast_pos.mpr hleast.1), mul_comm]
    exact hleast.2
  left
  rw [planarDist_referencePoint _ _ _ hi, Nat.cast_ofNat]
  exact ⟨hpiece.trans hhole, hpiece.trans hring⟩

theorem referencePoint_half : s.referencePoint target joints 2 1
    = (s.geometry.position joints).between target (1 / 2) := by
  rw [referencePoint_eq s target joints two_pos one_le_two, Nat.cast_one, Nat.cast_ofNat]

/-- A line of two pieces to a target within reach hands out its middle and its target. -/
theorem taken_of_two_pieces (hL : 0 < s.maxLength)
    (hlong : s.maxLength < (s.geometry.position joints).planarDist target)
    (hpair : (s.geometry.position joints).planarDist target ≤ 2 * s.maxLength)
    (hin : s.geometry.InDisc target) :
    (s.start target joints false).iterations = 2
      ∧ ∃ q q', (s.start target joints false).taken Session.never 0 = .waypoint q
        ∧ (s.start target joints false).taken Session.never 1 = .waypoint q'
        ∧ s.geometry.joints ((s.geometry.position joints).between target (1 / 2)) = .ok q
        ∧ s.geometry.joints target = .ok q' := by
  have hseg : (s.start target joints false).segmenting = true := start_segmenting_iff.mpr ⟨rfl, hlong⟩
  have htwo : (s.start target joints false).iterations = 2 := by
    refine le_antisymm ?_ ((two_le_iterations_iff hL).mpr hseg)
    rw [start_iterations_of_segmenting hseg]
    refine (min_le_left _ _).trans (Nat.ceil_le.mpr ?_)
    rw [div_le_iff₀ hL, Nat.cast_ofNat]
    exact hpair
  have hrun := (s.start_visits target joints false).runsThrough rfl (htwo ▸ one_le_two)
  obtain ⟨q, hq⟩ : s.geometry.Solves (s.referencePoint target joints 2 1) := by
    rw [referencePoint_half]
    exact Geometry.solves_iff_inDisc.mpr
      ((s.geometry.inDisc_position joints).between hin ⟨by norm_num, by norm_num⟩)
  obtain ⟨q', hq'⟩ : s.geometry.Solves target := Geometry.solves_iff_inDisc.mpr hin
  rw [htwo] at hrun
  refine ⟨htwo, q, q', hrun.taken_of_ok (by omega) (fun j hj => absurd hj (Nat.not_lt_zero j)) hq,
    hrun.taken_of_ok (by omega) (fun j hj => ?_) ?_, referencePoint_half ▸ hq, hq'⟩
  · obtain rfl : j = 0 := by omega
    exact ⟨q, hq⟩
  · show s.geometry.joints (s.referencePoint target joints 2 2) = .ok q'
    rw [referencePoint_last]
    exact hq'

end Segmenter

/--
**What the lower link does between two waypoints.**

It turns by the angle under which the base sees the piece, which is at most half a turn, and by
the change of the shoulder; and a whole turn back or on if the piece crosses the half line behind
the base downwards or upwards. So where a piece is short, the lower link goes the short way round
if the piece does not cross, and the long way if it does. All pieces are short where the limit is
short against the hole.
-/
theorem lower_link_between_waypoints {s : Segmenter ℝ} (hL : 0 < s.maxLength)
    (target : Position ℝ k) (joints : Joints ℝ k) {i : Nat} {q q' : Joints ℝ k}
    (hq : (s.start target joints false).taken Session.never i = .waypoint q)
    (hq' : (s.start target joints false).taken Session.never (i + 1) = .waypoint q') :
    let arm := s.geometry
    let w := s.referencePoint target joints (s.start target joints false).iterations
    let p := w (i + 1)
    let p' := w (i + 2)
    (∃ swing : ℝ, |swing| ≤ 180
        ∧ ‖p.tip‖ * p'.tip = ‖p'.tip‖ * (Circle.exp (Scalar.toRadians swing) * p.tip)
        ∧ q'.q1 - q.q1
          = swing - arm.elbow.side * Scalar.toDegrees (arm.shoulder ‖p'.tip‖ - arm.shoulder ‖p.tip‖)
            - 360 * p.turns p')
      ∧ (arm.Short p p' →
        (¬ p.CrossesDown p' → ¬ p'.CrossesDown p → |q'.q1 - q.q1| ≤ 180)
          ∧ (p.CrossesDown p' → |q'.q1 - q.q1 + 360| ≤ 180)
          ∧ (p'.CrossesDown p → |q'.q1 - q.q1 - 360| ≤ 180))
      ∧ ((arm.position joints).planarDist target ≤ Segmenter.maxPieces * s.maxLength →
        s.maxLength ≤ |arm.lower - arm.upper| → s.maxLength ≤ 2 * arm.lower → arm.Short p p') := by
  intro arm w p p'
  have hn : 1 ≤ (s.start target joints false).iterations := Segmenter.one_le_iterations hL
  have hrun := (s.start_visits target joints false).runsThrough rfl hn
  obtain ⟨-, hj⟩ := hrun.joints_of_waypoint hq
  obtain ⟨hi, hj'⟩ := hrun.joints_of_waypoint hq'
  have hj : arm.joints p = .ok q := hj
  have hj' : arm.joints p' = .ok q' := hj'
  have hstep := Geometry.q1_sub_eq_swing hj hj'
  refine ⟨⟨Scalar.toDegrees (p.swing p'), ?_, ?_, ?_⟩, fun hshort => ?_, fun hcount hhole hring => ?_⟩
  · exact Scalar.abs_toDegrees_le_iff.mpr (p.abs_swing_le p')
  · rw [Scalar.toRadians_toDegrees]
    exact p.tip_swing p'
  · rw [hstep, Scalar.toDegrees_eq, Scalar.toDegrees_eq, Scalar.toDegrees_eq]
    ring
  · have hturn := Scalar.abs_toDegrees_le_iff.mpr (hshort.abs_swing_sub_le
      (Geometry.solves_iff_inDisc.mp ⟨q, hj⟩) (Geometry.solves_iff_inDisc.mp ⟨q', hj'⟩))
    refine ⟨fun hdown hup => ?_, fun hdown => ?_, fun hup => ?_⟩
    · rw [hstep, Position.turns_of_not_crossing hdown hup, Int.cast_zero, mul_zero, sub_zero]
      exact hturn
    · rw [hstep, Position.turns_of_down hdown, Int.cast_one, mul_one, sub_add_cancel]
      exact hturn
    · rw [hstep, Position.turns_of_up hup, Int.cast_neg, Int.cast_one, mul_neg_one, sub_neg_eq_add,
        add_sub_cancel_right]
      exact hturn
  · exact Segmenter.short_of_maxLength hL hcount hhole hring hi

/-! ## Lines on which it goes the long way round -/

/-- The links of this arm are equal, so that it has no hole. -/
noncomputable def Geometry.even : Geometry ℝ where
  lower := 5
  upper := 5
  elbow := .up
  convention := .absolute
  lower_pos := Scalar.isPositive_iff.mpr (by norm_num)
  upper_pos := Scalar.isPositive_iff.mpr (by norm_num)

/-- With its lower link turned back and its upper link turned up the arm has its tip behind the
base. -/
theorem Geometry.position_holed_back (carried : Vector ℝ k) :
    holed.position ⟨⟨180, 90, carried⟩⟩ = ⟨⟨-3, 1, carried⟩⟩ := by
  have hback : Scalar.toRadians (180 : ℝ) = π := by
    rw [Scalar.toRadians_eq]
    field_simp
  have hup : Scalar.toRadians (90 : ℝ) = π / 2 := by
    rw [Scalar.toRadians_eq]
    ring
  have htip : holed.forward ⟨180, 90⟩ = ⟨-3, 1⟩ := by
    show Planar.mk ((3 : ℝ) * cos (Scalar.toRadians 180) + 1 * cos (Scalar.toRadians 90))
      (3 * sin (Scalar.toRadians 180) + 1 * sin (Scalar.toRadians 90)) = ⟨-3, 1⟩
    rw [hback, hup, cos_pi, sin_pi, cos_pi_div_two, sin_pi_div_two]
    norm_num
  show Position.mk ⟨(holed.forward ⟨180, 90⟩).x, (holed.forward ⟨180, 90⟩).y, carried⟩ = _
  rw [htip]

/-- Stretched along the second axis, downwards. -/
theorem Geometry.position_even_down (carried : Vector ℝ k) :
    even.position ⟨⟨-90, -90, carried⟩⟩ = ⟨⟨0, -10, carried⟩⟩ := by
  have hdown : Scalar.toRadians (-90 : ℝ) = -(π / 2) := by
    rw [Scalar.toRadians_eq]
    ring
  have htip : even.forward ⟨-90, -90⟩ = ⟨0, -10⟩ := by
    show Planar.mk ((5 : ℝ) * cos (Scalar.toRadians (-90)) + 5 * cos (Scalar.toRadians (-90)))
      (5 * sin (Scalar.toRadians (-90)) + 5 * sin (Scalar.toRadians (-90))) = ⟨0, -10⟩
    rw [hdown, cos_neg, sin_neg, cos_pi_div_two, sin_pi_div_two]
    norm_num
  show Position.mk ⟨(even.forward ⟨-90, -90⟩).x, (even.forward ⟨-90, -90⟩).y, carried⟩ = _
  rw [htip]

/-- A line of two pieces behind the base: the second of them crosses the first axis. -/
theorem Segmenter.line_behind_the_base :
    let s : Segmenter ℝ := .withMaxLength (.forArm .holed 0) (2 / 3)
    let target : Position ℝ 0 := ⟨⟨-3, -1 / 3, #v[]⟩⟩
    let joints : Joints ℝ 0 := ⟨⟨180, 90, #v[]⟩⟩
    s.maxLength = 2 / 3 ∧ s.geometry = .holed
      ∧ (s.geometry.position joints).planarDist target = 4 / 3
      ∧ (s.geometry.position joints).between target (1 / 2) = ⟨⟨-3, 1 / 3, #v[]⟩⟩
      ∧ (⟨⟨-3, 1 / 3, #v[]⟩⟩ : Position ℝ 0).CrossesDown target
      ∧ s.geometry.InDisc target := by
  intro s target joints
  have hs : s = ⟨.holed, 2 / 3, 0⟩ := if_pos (Scalar.isPositive_iff.mpr (by norm_num))
  have hstart : s.geometry.position joints = ⟨⟨-3, 1, #v[]⟩⟩ := by
    rw [hs]
    exact Geometry.position_holed_back _
  have hdist : √(((-3 : ℝ) - -3) ^ 2 + (-1 / 3 - 1) ^ 2) = 4 / 3 := by
    rw [sqrt_eq_iff_mul_self_eq (by positivity) (by positivity)]
    norm_num
  rw [hstart, hs]
  refine ⟨rfl, rfl, hdist, ?_, Position.crossesDown_iff.mpr ⟨?_, ?_, ?_⟩, ?_⟩
  · refine Position.ext_axes ?_ ?_ fun i hi => absurd hi (Nat.not_lt_zero i)
    · show (-3 : ℝ) + 1 / 2 * (-3 - -3) = -3
      norm_num
    · show (1 : ℝ) + 1 / 2 * (-1 / 3 - 1) = 1 / 3
      norm_num
  · show (0 : ℝ) ≤ 1 / 3
    norm_num
  · show (-1 / 3 : ℝ) < 0
    norm_num
  · show (1 / 3 : ℝ) * -3 < -3 * (-1 / 3)
    norm_num
  · show (-3 : ℝ) ^ 2 + (-1 / 3) ^ 2 ≤ (3 + 1) ^ 2
    norm_num

/-- Between the two waypoints of that line the lower link is turned back by a whole turn, less what
the base sees. -/
theorem lower_link_behind_the_base :
    let s : Segmenter ℝ := .withMaxLength (.forArm .holed 0) (2 / 3)
    let line := s.start (⟨⟨-3, -1 / 3, #v[]⟩⟩ : Position ℝ 0) ⟨⟨180, 90, #v[]⟩⟩ false
    0 < s.maxLength ∧ ∃ q q', line.taken Session.never 0 = .waypoint q
      ∧ line.taken Session.never 1 = .waypoint q' ∧ |q'.q1 - q.q1 + 360| ≤ 180 := by
  intro s line
  obtain ⟨hL, harm, hdist, hmid, hcross, hin⟩ := Segmenter.line_behind_the_base
  have hpos : 0 < s.maxLength := by
    rw [hL]
    norm_num
  obtain ⟨htwo, q, q', hq, hq', -, -⟩ := Segmenter.taken_of_two_pieces hpos
    (by rw [hdist, hL]; norm_num) (by rw [hdist, hL]; norm_num) hin
  obtain ⟨-, hlaw, hshort⟩ := lower_link_between_waypoints hpos _ _ hq hq'
  have hmany : (2 : ℝ) ≤ Segmenter.maxPieces := Nat.ofNat_le_cast.mpr (by decide)
  have hshort := hshort (by rw [hdist, hL]; linarith)
    (by rw [hL, harm]; show (2 / 3 : ℝ) ≤ |3 - 1|; norm_num)
    (by rw [hL, harm]; show (2 / 3 : ℝ) ≤ 2 * 3; norm_num)
  refine ⟨hpos, q, q', hq, hq', (hlaw hshort).2.1 ?_⟩
  rw [htwo, Segmenter.referencePoint_half, hmid, Segmenter.referencePoint_last]
  exact hcross

/-- Behind the base the lower link turns by more than half a turn, since the shoulder is the same at
both waypoints. -/
theorem Segmenter.half_turn_lt_behind_the_base :
    let s : Segmenter ℝ := .withMaxLength (.forArm .holed 0) (2 / 3)
    let line := s.start (⟨⟨-3, -1 / 3, #v[]⟩⟩ : Position ℝ 0) ⟨⟨180, 90, #v[]⟩⟩ false
    ∃ q q', line.taken Session.never 0 = .waypoint q
      ∧ line.taken Session.never 1 = .waypoint q' ∧ 180 < |q'.q1 - q.q1| := by
  intro s line
  obtain ⟨hL, -, hdist, hmid, hcross, hin⟩ := line_behind_the_base
  obtain ⟨-, q, q', hq, hq', hj, hj'⟩ := taken_of_two_pieces (by rw [hL]; norm_num)
    (by rw [hdist, hL]; norm_num) (by rw [hdist, hL]; norm_num) hin
  refine ⟨q, q', hq, hq', ?_⟩
  have hnorm : ‖(⟨⟨-3, -1 / 3, #v[]⟩⟩ : Position ℝ 0).tip‖
      = ‖(⟨⟨-3, 1 / 3, #v[]⟩⟩ : Position ℝ 0).tip‖ := by
    unfold Position.tip
    rw [Planar.norm_toComplex, Planar.norm_toComplex]
    norm_num
  rw [hmid] at hj
  rw [Geometry.q1_sub_eq hj hj', hnorm, sub_self, mul_zero, sub_zero, ← not_le,
    Scalar.abs_toDegrees_le_iff]
  intro hle
  have hfar := Position.step_lt_of_crossesDown hcross
  have hnear := (abs_le.mp hle).1
  linarith

/-- Without a hole the shoulder is wider the nearer the tip is. -/
theorem Geometry.cos_shoulder_even {r : ℝ} (hr : 0 < r) (hreach : r ≤ 10) :
    10 * cos (even.shoulder r) = r := by
  have hlaw : 2 * 5 * (r * cos (even.shoulder r)) = r ^ 2 + 5 ^ 2 - 5 ^ 2 := by
    refine @cos_shoulder even r hr.le ?_ ?_
    · show |(5 : ℝ) - 5| ≤ r
      rw [sub_self, abs_zero]
      exact hr.le
    · show r ≤ 5 + 5
      linarith
  apply mul_left_cancel₀ hr.ne'
  linarith

/-- A line of two pieces of the arm without a hole, with the base between its waypoints. -/
theorem Segmenter.line_through_the_base :
    let s : Segmenter ℝ := .withMaxLength (.forArm .even 0) 6
    let target : Position ℝ 0 := ⟨⟨0, 2, #v[]⟩⟩
    let joints : Joints ℝ 0 := ⟨⟨-90, -90, #v[]⟩⟩
    s.maxLength = 6 ∧ s.geometry = .even
      ∧ (s.geometry.position joints).planarDist target = 12
      ∧ (s.geometry.position joints).between target (1 / 2) = ⟨⟨0, -4, #v[]⟩⟩
      ∧ s.geometry.InDisc target := by
  intro s target joints
  have hs : s = ⟨.even, 6, 0⟩ := if_pos (Scalar.isPositive_iff.mpr (by norm_num))
  have hstart : s.geometry.position joints = ⟨⟨0, -10, #v[]⟩⟩ := by
    rw [hs]
    exact Geometry.position_even_down _
  have hdist : √(((0 : ℝ) - 0) ^ 2 + (2 - -10) ^ 2) = 12 := by
    rw [sqrt_eq_iff_mul_self_eq (by positivity) (by positivity)]
    norm_num
  rw [hstart, hs]
  refine ⟨rfl, rfl, hdist, ?_, ?_⟩
  · refine Position.ext_axes ?_ ?_ fun i hi => absurd hi (Nat.not_lt_zero i)
    · show (0 : ℝ) + 1 / 2 * (0 - 0) = 0
      norm_num
    · show (-10 : ℝ) + 1 / 2 * (2 - -10) = -4
      norm_num
  · show (0 : ℝ) ^ 2 + 2 ^ 2 ≤ (5 + 5) ^ 2
    norm_num

/-- Through the base of the arm without a hole the base sees just half a turn, and the shoulder
opens. -/
theorem Segmenter.half_turn_lt_through_the_base :
    let s : Segmenter ℝ := .withMaxLength (.forArm .even 0) 6
    let line := s.start (⟨⟨0, 2, #v[]⟩⟩ : Position ℝ 0) ⟨⟨-90, -90, #v[]⟩⟩ false
    ∃ q q', line.taken Session.never 0 = .waypoint q
      ∧ line.taken Session.never 1 = .waypoint q' ∧ 180 < |q'.q1 - q.q1| := by
  intro s line
  obtain ⟨hL, harm, hdist, hmid, hin⟩ := line_through_the_base
  obtain ⟨-, q, q', hq, hq', hj, hj'⟩ := taken_of_two_pieces (by rw [hL]; norm_num)
    (by rw [hdist, hL]; norm_num) (by rw [hdist, hL]; norm_num) hin
  refine ⟨q, q', hq, hq', ?_⟩
  rw [hmid, harm] at hj
  rw [harm] at hj'
  have hfar : ‖(⟨⟨0, -4, #v[]⟩⟩ : Position ℝ 0).tip‖ = 4 := by
    unfold Position.tip
    rw [Planar.norm_toComplex, sqrt_eq_iff_mul_self_eq (by positivity) (by positivity)]
    norm_num
  have hnear : ‖(⟨⟨0, 2, #v[]⟩⟩ : Position ℝ 0).tip‖ = 2 := by
    unfold Position.tip
    rw [Planar.norm_toComplex, sqrt_eq_iff_mul_self_eq (by positivity) (by positivity)]
    norm_num
  have hbelow : (⟨⟨0, -4, #v[]⟩⟩ : Position ℝ 0).bearing = -(π / 2) :=
    Complex.arg_eq_neg_pi_div_two_iff.mpr ⟨rfl, show (-4 : ℝ) < 0 by norm_num⟩
  have habove : (⟨⟨0, 2, #v[]⟩⟩ : Position ℝ 0).bearing = π / 2 :=
    Complex.arg_eq_pi_div_two_iff.mpr ⟨rfl, show (0 : ℝ) < 2 by norm_num⟩
  rw [Geometry.q1_sub_eq hj hj', hfar, hnear, hbelow, habove, ← not_le,
    Scalar.abs_toDegrees_le_iff]
  intro hle
  have hle : π / 2 - -(π / 2) - -1 * (Geometry.even.shoulder 2 - Geometry.even.shoulder 4) ≤ π :=
    (abs_le.mp hle).2
  have hcos := cos_le_cos_of_nonneg_of_le_pi (Geometry.shoulder_nonneg 2) (Geometry.shoulder_le_pi 4)
    (show Geometry.even.shoulder 2 ≤ Geometry.even.shoulder 4 by linarith)
  have hfar := Geometry.cos_shoulder_even (r := 4) (by norm_num) (by norm_num)
  have hnear := Geometry.cos_shoulder_even (r := 2) (by norm_num) (by norm_num)
  linarith

/-- The lower link may turn by more than half a turn between two waypoints: on a line across the
half line behind the base; and without a hole also on a line that does not cross it. -/
theorem lower_link_the_long_way_round :
    (let s : Segmenter ℝ := .withMaxLength (.forArm .holed 0) (2 / 3)
      let line := s.start (⟨⟨-3, -1 / 3, #v[]⟩⟩ : Position ℝ 0) ⟨⟨180, 90, #v[]⟩⟩ false
      ∃ q q', line.taken Session.never 0 = .waypoint q
        ∧ line.taken Session.never 1 = .waypoint q' ∧ 180 < |q'.q1 - q.q1|)
      ∧ (let s : Segmenter ℝ := .withMaxLength (.forArm .even 0) 6
        let line := s.start (⟨⟨0, 2, #v[]⟩⟩ : Position ℝ 0) ⟨⟨-90, -90, #v[]⟩⟩ false
        ∃ q q', line.taken Session.never 0 = .waypoint q
          ∧ line.taken Session.never 1 = .waypoint q' ∧ 180 < |q'.q1 - q.q1|) :=
  ⟨Segmenter.half_turn_lt_behind_the_base, Segmenter.half_turn_lt_through_the_base⟩

end ScaraArm
