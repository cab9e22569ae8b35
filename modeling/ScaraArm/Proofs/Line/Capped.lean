import ScaraArm.Proofs.Binary64.Counting
import ScaraArm.Proofs.Binary64.Inverse
import ScaraArm.Proofs.Line.Standing

/-!
# Lines whose count is cut off

A line that would have more pieces than the limit gets as many as the limit, and longer ones. It
is meant for targets so far away that the first of these long steps leaves the disc. What decides
is that step alone: such a line fails at once exactly if the point one step from its start is out
of reach.

A step of more than three times the reach leaves the disc from wherever the arm stands, whatever
is lost to rounding on the way: the tip is never farther out than the reach, and a point that is
accepted is not out twice as far, since four times a square is not rounded to the square. But a
shorter step need not, and then a run of billions of pulls has begun.
-/

namespace ScaraArm

variable {k : Nat}

namespace Binary64

/-! ## A point that is accepted is not far -/

/-- Sines and cosines are at most one, unless they are undefined. -/
structure Circular.Unit (circular : Circular) : Prop where
  sin : ∀ a : Float, IsNumber (circular.sin a) → Within (ofInt 1) (circular.sin a)
  cos : ∀ a : Float, IsNumber (circular.cos a) → Within (ofInt 1) (circular.cos a)

/-- Rounding doubles a number at most. -/
theorem snap_le_two_mul {r : ℝ} (h : 0 ≤ r) : snap r ≤ 2 * r := by
  have hpow : (0 : ℝ) < 2 ^ grid r := by positivity
  have hdiv : 0 ≤ r / 2 ^ grid r := div_nonneg h hpow.le
  have hround : (halfEven (r / 2 ^ grid r) : ℝ) ≤ 2 * (r / 2 ^ grid r) := by
    rcases lt_or_ge (r / 2 ^ grid r) (1 / 2) with hsmall | hlarge
    · have hzero : halfEven (r / 2 ^ grid r) = 0 := by
        refine halfEven_eq (isHalfEven_iff.mpr (Or.inl ?_))
        rwa [Int.cast_zero, sub_zero, abs_of_nonneg hdiv]
      rw [hzero, Int.cast_zero]
      positivity
    · linarith [(abs_le.mp (abs_sub_halfEven_le (r / 2 ^ grid r))).1]
  calc snap r = halfEven (r / 2 ^ grid r) * 2 ^ grid r := snap_eq r
    _ ≤ 2 * (r / 2 ^ grid r) * 2 ^ grid r := mul_le_mul_of_nonneg_right hround hpow.le
    _ = 2 * r := by field_simp

variable {x y d : Float} {a b R : ℝ}

/-- A leg whose square does not lift a sum above the rounded square of a length is not twice as
long. -/
theorem abs_lt_of_sq_add (hx : x.isFinite = true) (hy : IsNumber (y * y)) (hR : 0 ≤ R)
    (hd : Dyadic (snap (R * R))) (hpos : 0 < snap (R * R))
    (hle : nearest (value (x * x) + value (y * y)) ≤ snap (R * R)) :
    ∃ r : ℝ, value x = r ∧ |r| < 2 * R := by
  obtain ⟨r, hr, -⟩ := exists_real hx
  refine ⟨r, hr, ?_⟩
  by_contra hfar
  have hsq : 2 * snap (R * R) ≤ r * r := by
    calc 2 * snap (R * R) ≤ 2 * (2 * (R * R)) :=
          mul_le_mul_of_nonneg_left (snap_le_two_mul (mul_self_nonneg R)) zero_le_two
      _ = (2 * R) * (2 * R) := by ring
      _ ≤ |r| * |r| := mul_self_le_mul_self (by positivity) (not_lt.mp hfar)
      _ = r * r := abs_mul_abs_self r
  have hnumber : IsNumber (x * x) := isNumber_mul hx hx
  have hlower : (snap (R * R) : EReal) < nearest ((2 * snap (R * R) : ℝ)) := by
    rw [nearest_of_nonneg (by positivity), snap_of_dyadic hd.two_mul]
    split
    · exact EReal.coe_lt_coe_iff.mpr (by linarith)
    · exact EReal.coe_lt_top _
  have hupper : nearest ((2 * snap (R * R) : ℝ)) ≤ nearest (value (x * x) + value (y * y)) := by
    calc nearest ((2 * snap (R * R) : ℝ)) ≤ nearest ((r * r : ℝ)) :=
          nearest_mono (EReal.coe_le_coe_iff.mpr hsq)
      _ = value (x * x) := by rw [value_mul hnumber, hr, ← EReal.coe_mul]
      _ = nearest (value (x * x)) := (nearest_value hnumber).symm
      _ ≤ nearest (value (x * x) + value (y * y)) :=
          nearest_mono (le_add_of_nonneg_right (mul_self_nonneg_of_isNumber (isNumber_of_mul hy).1))
  exact absurd (hlower.trans_le (hupper.trans hle)) (lt_irrefl _)

/-- From a point within a length, a step to a point within twice the length is at most three times
as long. -/
theorem abs_lt_of_add (hx : Bounded x R) (hR : Dyadic R) (hsum : IsNumber (x + d)) {r : ℝ}
    (hr : value (x + d) = r) (hnear : |r| < 2 * R) :
    ∃ t : ℝ, value d = t ∧ |t| < 3 * R := by
  obtain ⟨-, s, hs, hsR⟩ := hx
  have hvalue := value_add hsum
  rw [hr, hs] at hvalue
  induction hd : value d with
  | bot =>
    rw [hd, EReal.add_bot, nearest_bot] at hvalue
    exact absurd hvalue (EReal.coe_ne_bot r)
  | top =>
    rw [hd, EReal.coe_add_top, nearest_top] at hvalue
    exact absurd hvalue (EReal.coe_ne_top r)
  | coe t =>
    refine ⟨t, rfl, ?_⟩
    rw [hd, ← EReal.coe_add] at hvalue
    by_contra hfar
    have hout : 2 * R ≤ |s + t| := by
      have := abs_sub_abs_le_abs_sub t (-s)
      rw [abs_neg, sub_neg_eq_add, add_comm t s] at this
      linarith
    have hround : 2 * R ≤ |r| := by
      calc 2 * R = snap (2 * R) := (snap_of_dyadic hR.two_mul).symm
        _ ≤ snap |s + t| := snap_mono hout
        _ = |r| := by rw [← abs_snap, snap_of_nearest hvalue.symm]
    linarith

/-- A number between the bound and its opposite. -/
theorem within_of_abs_le {r t : ℝ} (hx : value x = r) (hx' : IsNumber x) (hd : value d = t)
    (hd' : IsNumber d) (h : |t| ≤ r) : Within x d := by
  obtain ⟨hlow, hhigh⟩ := abs_le.mp h
  refine ⟨le_iff.mpr ⟨isNumber_neg.mpr hx', hd', ?_⟩, le_iff.mpr ⟨hd', hx', ?_⟩⟩
  · rw [value_neg, hx, hd, ← EReal.coe_neg]
    exact EReal.coe_le_coe_iff.mpr hlow
  · rw [hx, hd]
    exact EReal.coe_le_coe_iff.mpr hhigh

/-- The tip of two links is never farther out than they reach. -/
theorem bounded_tip {l u c : Float} (hl : Measures l a) (hu : Measures u b)
    (hspan : span a b < 2 ^ 1024) (hc : IsNumber c → Within (ofInt 1) c)
    (hd : IsNumber d → Within (ofInt 1) d) (h : IsNumber (l * c + u * d)) :
    Bounded (l * c + u * d) (span a b) := by
  obtain ⟨hlc, hud⟩ := isNumber_of_add h
  have hc := (hc (isNumber_of_mul hlc).2).bounded_one
  have hd := (hd (isNumber_of_mul hud).2).bounded_one
  exact (hl.mul_le_one hc).add (hu.mul_le_one hd) hspan

namespace Arm

variable {circular : Circular}

/-- The arm reaches as far as `R`, and `R` can be squared. -/
structure Spans (g : Arm circular) (R : ℝ) : Prop where
  reach : Measures g.reach R
  lt : R < (2 : ℕ) ^ 512
  /-- The square is rounded to a double. -/
  value_sq : value (g.reach * g.reach) = snap (R * R)
  dyadic_sq : Dyadic (snap (R * R))
  /-- It is not rounded to zero. -/
  sq_pos : 0 < snap (R * R)
  /-- The tip is never farther out. -/
  tip : ∀ c d : Float, (IsNumber c → Within (ofInt 1) c) → (IsNumber d → Within (ofInt 1) d) →
    IsNumber (g.lower * c + g.upper * d) → Bounded (g.lower * c + g.upper * d) R

theorem exists_spans (g : Arm circular) (hfin : (g.reach * g.reach).isFinite = true)
    (hpos : ofInt 0 < g.reach * g.reach) : ∃ R, g.Spans R := by
  obtain ⟨a, hl⟩ := exists_measures circular (@Geometry.lower_pos Float (scalar circular) g)
  obtain ⟨b, hu⟩ := exists_measures circular (@Geometry.upper_pos Float (scalar circular) g)
  have hfits : Fits a b := (isFinite_reach_sq_iff hl hu).mp hfin
  have hlt := hfits.span_lt
  have hvalue : value g.reach = span a b := hfits.value_reach hl hu
  have hnumber : IsNumber g.reach := isNumber_reach hl hu
  have hreach : g.reach.isFinite = true := isFinite_of_value hnumber hvalue
  obtain ⟨R, hR, hdyadic, -⟩ := exists_real hreach
  obtain rfl : span a b = R := EReal.coe_eq_coe_iff.mp (hvalue.symm.trans hR)
  obtain ⟨c, hsq, hcd, -⟩ := exists_real hfin
  obtain rfl : snap (span a b * span a b) = c := by
    have hround := value_mul (isNumber_mul_self hnumber)
    rw [hsq, hvalue, ← EReal.coe_mul] at hround
    exact snap_of_nearest hround.symm
  refine ⟨span a b, ⟨hreach, hvalue, hl.pos.trans_le (le_span hl.dyadic hu.pos), hdyadic⟩,
    by exact_mod_cast hlt, hsq, hcd, ?_, fun c d hc hd h => ?_⟩
  · have hlt := (lt_iff.mp hpos).2.2
    rw [value_ofInt (by norm_num), hsq, EReal.coe_lt_coe_iff, Int.cast_zero] at hlt
    exact hlt
  · exact bounded_tip hl hu (hlt.trans (pow_lt_pow_right₀ one_lt_two (by omega))) hc hd h

variable {g : Arm circular}

/-- Three times the reach, in doubles. -/
theorem Spans.value_three (h : g.Spans R) :
    IsNumber (ofInt 3 * g.reach) ∧ value (ofInt 3 * g.reach) = snap (3 * R) := by
  have hnumber : IsNumber (ofInt 3 * g.reach) := isNumber_mul (by decide +kernel) h.reach.isFinite
  have hlt : R < 2 ^ 512 := by exact_mod_cast h.lt
  have hthree : 3 * R ≤ 2 ^ (2 + 512) := by
    rw [pow_add]
    exact mul_le_mul (by norm_num) hlt.le h.reach.pos.le (by norm_num)
  have hpow : Dyadic ((2 : ℝ) ^ (2 + 512)) := by
    have hpow := dyadic_zpow (k := (2 + 512 : ℕ)) (by norm_num)
    rwa [zpow_natCast] at hpow
  have hsmall : |snap (3 * R)| < 2 ^ 1024 := by
    rw [abs_of_nonneg (snap_nonneg (mul_pos three_pos h.reach.pos).le)]
    calc snap (3 * R) ≤ snap (2 ^ (2 + 512)) := snap_mono hthree
      _ = 2 ^ (2 + 512) := snap_of_dyadic hpow
      _ < 2 ^ 1024 := pow_lt_pow_right₀ one_lt_two (by norm_num)
  refine ⟨hnumber, ?_⟩
  rw [value_mul hnumber, value_ofInt (by norm_num), h.reach.value_eq, ← EReal.coe_mul, Int.cast_ofNat,
    nearest_of_abs_lt hsmall]

/-- One coordinate of a step to a point within reach. -/
theorem Spans.within (h : g.Spans R) (hx : IsNumber x → Bounded x R)
    (hfin : (x + d).isFinite = true) (hy : IsNumber (y * y))
    (hle : nearest (value ((x + d) * (x + d)) + value (y * y)) ≤ value (g.reach * g.reach)) :
    Within (ofInt 3 * g.reach) d := by
  have hsum := isNumber_of_isFinite hfin
  obtain ⟨hxn, hdn⟩ := isNumber_of_add hsum
  rw [h.value_sq] at hle
  obtain ⟨r, hr, hnear⟩ := abs_lt_of_sq_add hfin hy h.reach.pos.le h.dyadic_sq h.sq_pos hle
  obtain ⟨t, ht, hstep⟩ := abs_lt_of_add (hx hxn) h.reach.dyadic hsum hr hnear
  obtain ⟨hnumber, hthree⟩ := h.value_three
  refine within_of_abs_le hthree hnumber ht hdn ?_
  -- the step is a double, so it is not above the rounded bound either
  obtain ⟨t', ht', hdyadic, -⟩ := exists_real (isFinite_of_value hdn ht)
  obtain rfl : t = t' := EReal.coe_eq_coe_iff.mp (ht.symm.trans ht')
  calc |t| = |snap t| := by rw [snap_of_dyadic hdyadic]
    _ = snap |t| := abs_snap t
    _ ≤ snap (3 * R) := snap_mono hstep.le

/-- **A step to a point within reach is at most three times the reach long.** -/
theorem within_of_solves (hc : circular.Unit) (hfin : (g.reach * g.reach).isFinite = true)
    (hpos : ofInt 0 < g.reach * g.reach) :
    letI : Scalar Float := scalar circular
    ∀ (joints : Joints Float k) (step : Position Float k),
      Geometry.Solves g (Geometry.position g joints + step) →
        Within (ofInt 3 * g.reach) step.x ∧ Within (ofInt 3 * g.reach) step.y := by
  let _ : Scalar Float := scalar circular
  intro joints step h
  obtain ⟨R, hspans⟩ := g.exists_spans hfin hpos
  have hreach := Geometry.solves_iff.mp h
  have hs := isFinite_of_reaches hfin hreach
  obtain ⟨hx, hy⟩ := isFinite_of_isFinite_sq hs
  have hle := (le_iff.mp (reaches_iff.mp hreach)).2.2
  rw [value_add (isNumber_of_isFinite hs)] at hle
  constructor
  · exact hspans.within (fun h => hspans.tip _ _ (hc.cos _) (hc.cos _) h) hx
      (isNumber_mul hy hy) hle
  · rw [add_comm] at hle
    exact hspans.within (fun h => hspans.tip _ _ (hc.sin _) (hc.sin _) h) hy
      (isNumber_mul hx hx) hle

end Arm

end Binary64

/-! ## The line -/

namespace Segmenter

/-- The first point of a line with more than one piece is one step from the start. -/
theorem referencePoint_one {α : Type} [Scalar α] (s : Segmenter α) (target : Position α k)
    (joints : Joints α k) {n : Nat} (hn : 1 < n) :
    s.referencePoint target joints n 1
      = s.geometry.position joints
        + (target - s.geometry.position joints) / (Scalar.ofInt n : α) := by
  unfold referencePoint
  simp only [if_pos hn]
  rfl

/-- **A line whose count is cut off is cut up into as many pieces as the limit.** -/
theorem iterations_of_capped (circular : Binary64.Circular) :
    letI : Scalar Float := Binary64.scalar circular
    ∀ {s : Segmenter Float}, s.Built → ∀ (target : Position Float k) (joints : Joints Float k),
      Binary64.ofInt maxPieces < (target - s.geometry.position joints).planarNorm / s.maxLength →
        (s.start target joints false).segmenting = true
          ∧ (s.start target joints false).iterations = maxPieces := by
  let _ : Scalar Float := Binary64.scalar circular
  intro s hs target joints hcapped
  obtain ⟨a, hlength⟩ := Binary64.exists_measures circular
    (hs.isPositive_maxLength (Binary64.isPositive_defaultLength circular))
  have hlong : s.maxLength < (target - s.geometry.position joints).planarNorm := by
    refine Binary64.lt_of_one_lt_div hlength ?_
    refine Binary64.lt_iff.mpr ⟨Binary64.isNumber_ofInt 1, (Binary64.lt_iff.mp hcapped).2.1, ?_⟩
    refine lt_of_le_of_lt ?_ (Binary64.lt_iff.mp hcapped).2.2
    have hmax : Binary64.ofInt 1 ≤ Binary64.ofInt maxPieces := by decide +kernel
    exact (Binary64.le_iff.mp hmax).2.2
  have hseg : (s.start target joints false).segmenting = true :=
    start_segmenting_eq_true_iff.mpr ⟨rfl, decide_eq_true hlong⟩
  refine ⟨hseg, ?_⟩
  rw [start_iterations_eq_pieces hseg]
  exact Binary64.ceilUpTo_of_lt (by decide) hcapped

end Segmenter

open Binary64 in
/--
**A line whose count is cut off fails at once exactly if its first step leaves the disc.**

It is cut up into as many pieces as the limit. If the point one step from its start is out of
reach, the first pull reports that point and the line is over; otherwise the first pull hands out
its joints, and as many pulls are left as there are pieces. A step of more than three times the
reach on one axis, or an undefined one, does leave the disc, unless the squared reach is infinite
or rounded to zero.
-/
theorem first_pull_of_capped_line (circular : Circular) (hc : circular.Unit) :
    letI : Scalar Float := scalar circular
    ∀ {s : Segmenter Float}, s.Built → ∀ (target : Position Float k) (joints : Joints Float k),
      let start := s.geometry.position joints
      let step := (target - start) / ofInt Segmenter.maxPieces
      let line := s.start target joints false
      let reach := s.geometry.reach
      ofInt Segmenter.maxPieces < (target - start).planarNorm / s.maxLength →
        (line.segmenting = true ∧ line.iterations = Segmenter.maxPieces)
          ∧ (¬ s.geometry.Solves (start + step) →
            line.taken Session.never 0 = .unreachable ⟨(start + step).x, (start + step).y, reach⟩
              ∧ (line.after Session.never 1).isFinished = true)
          ∧ (s.geometry.Solves (start + step) →
            (∃ q, line.taken Session.never 0 = .waypoint q)
              ∧ (line.after Session.never 1).remaining = Segmenter.maxPieces)
          ∧ ((reach * reach).isFinite = true → ofInt 0 < reach * reach →
            ¬ (Within (ofInt 3 * reach) step.x ∧ Within (ofInt 3 * reach) step.y) →
              ¬ s.geometry.Solves (start + step)) := by
  let _ : Scalar Float := scalar circular
  intro s hs target joints start step line reach hcapped
  obtain ⟨hseg, hcount⟩ := Segmenter.iterations_of_capped circular hs target joints hcapped
  have hcount : line.iterations = Segmenter.maxPieces := hcount
  have hvisits := s.start_visits target joints false
  have hone : 1 ≤ line.iterations := by
    rw [hcount]
    decide
  have hrun : line.RunsThrough (s.referencePoint target joints line.iterations) :=
    hvisits.runsThrough rfl hone
  have hfirst : s.referencePoint target joints line.iterations 1 = start + step := by
    rw [hcount]
    exact s.referencePoint_one target joints (by decide)
  refine ⟨⟨hseg, hcount⟩, fun hfail => ?_, fun hsolve => ?_, fun hfin hpos hfar hsolve =>
    hfar (Arm.within_of_solves hc hfin hpos joints step hsolve)⟩
  · rw [← hfirst] at hfail ⊢
    have htaken := hrun.taken_of_not_solves hone (fun j hj => absurd hj (Nat.not_lt_zero j)) hfail
    refine ⟨htaken, ?_⟩
    by_contra hmore
    obtain ⟨q, hq⟩ := Session.not_isFinished_after_iff.mp (Bool.eq_false_iff.mpr hmore)
    cases hq.symm.trans htaken
  · rw [← hfirst] at hsolve
    obtain ⟨q, hq⟩ := hsolve
    have htaken := hrun.taken_of_ok hone (fun j hj => absurd hj (Nat.not_lt_zero j)) hq
    refine ⟨⟨q, htaken⟩, ?_⟩
    have hmore := Session.not_isFinished_after_iff.mpr ⟨q, htaken⟩
    rw [(Session.after_of_not_isFinished rfl hvisits hmore).2]
    exact hcount

theorem Binary64.Circular.unit_level : Circular.level.Unit where
  sin _ _ := within_zero.1
  cos _ _ := show Within (ofInt 1) (ofInt 1) by
    unfold Within
    decide +kernel

open Binary64 in
/-- A line to a point `10^20` millimetres away fails at once. -/
theorem first_pull_of_the_farthest_line :
    letI : Scalar Float := scalar .level
    let s : Segmenter Float := .forArm levelArm 0
    let target : Position Float 0 := ⟨ofInt (10 ^ 20), ofInt 0, #v[]⟩
    let start := s.geometry.position (.zero 0)
    let line := s.start target (.zero 0) false
    ofInt Segmenter.maxPieces < (target - start).planarNorm / s.maxLength
      ∧ (∃ e, line.taken Session.never 0 = .unreachable e)
      ∧ (line.after Session.never 1).isFinished = true := by
  let _ : Scalar Float := scalar .level
  intro s target start line
  have hs : s.Built := .forArm _ _
  have hcapped : ofInt Segmenter.maxPieces < (target - start).planarNorm / s.maxLength := by
    decide +kernel
  have hfin : (s.geometry.reach * s.geometry.reach).isFinite = true := by decide +kernel
  have hpos : ofInt 0 < s.geometry.reach * s.geometry.reach := by decide +kernel
  have hfar : ¬ (Within (ofInt 3 * s.geometry.reach)
        ((target - start) / ofInt Segmenter.maxPieces).x
      ∧ Within (ofInt 3 * s.geometry.reach) ((target - start) / ofInt Segmenter.maxPieces).y) := by
    unfold Within
    decide +kernel
  obtain ⟨-, hfail, -, hleaves⟩ :=
    first_pull_of_capped_line .level Circular.unit_level hs target (.zero 0) hcapped
  obtain ⟨htaken, hover⟩ := hfail (hleaves hfin hpos hfar)
  exact ⟨hcapped, ⟨_, htaken⟩, hover⟩

open Binary64 in
/-- A line from the stretched arm inwards, to a point `10^10` millimetres behind the base, has its
count cut off and hands out its first waypoint. -/
theorem first_pull_of_a_line_through_the_disc :
    letI : Scalar Float := scalar .level
    let s : Segmenter Float := .forArm levelArm 0
    let target : Position Float 0 := ⟨ofInt (-10 ^ 10), ofInt 0, #v[]⟩
    let start := s.geometry.position (.zero 0)
    let line := s.start target (.zero 0) false
    ofInt Segmenter.maxPieces < (target - start).planarNorm / s.maxLength
      ∧ line.iterations = Segmenter.maxPieces
      ∧ (∃ q, line.taken Session.never 0 = .waypoint q)
      ∧ (line.after Session.never 1).isFinished = false := by
  let _ : Scalar Float := scalar .level
  intro s target start line
  have hfirst : line.taken Session.never 0 = .waypoint ⟨ofInt 0, ofInt 0, #v[]⟩ := by decide +kernel
  refine ⟨by decide +kernel, by decide +kernel, ⟨_, hfirst⟩, ?_⟩
  exact Session.not_isFinished_after_iff.mpr ⟨_, hfirst⟩

end ScaraArm
