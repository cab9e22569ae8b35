import ScaraArm.Proofs.Line.RunLaw
import ScaraArm.Proofs.Real.RoundTrip

/-!
# The pieces of a line

Over the real numbers the step that is added again and again collects no rounding, so the
points of a line are shares of the way to its target: waypoint `i` of `n` has covered the
share `i / n` (`between`). The last step needs no other argument than the ones before it,
because the snap onto the target and one more addition of the step come out the same.

The number of pieces is a ceiling, cut off at a limit. Below the limit it is the least number
of pieces of which none is longer than the segmenter allows, and a line of exactly the
allowed length, or of a whole multiple of it, gets no piece more than it needs.
-/

namespace ScaraArm

variable {k : Nat}

namespace Position

/-- The position that has covered a share of the way from one position to another, on every
axis. -/
noncomputable def between (p q : Position ℝ k) (share : ℝ) : Position ℝ k :=
  ⟨p.zipWith (fun a b => a + share * (b - a)) q.toPerAxis⟩

/-- How far two positions are apart in the plane the arm sweeps. -/
noncomputable def planarDist (p q : Position ℝ k) : ℝ := √((q.x - p.x) ^ 2 + (q.y - p.y) ^ 2)

variable (p q : Position ℝ k) (s t : ℝ)

theorem planarNorm_sub : (q - p).planarNorm = p.planarDist q := by
  show √((q.x - p.x) * (q.x - p.x) + (q.y - p.y) * (q.y - p.y)) = _
  rw [planarDist, pow_two, pow_two]

@[simp] theorem x_between : (p.between q t).x = p.x + t * (q.x - p.x) := rfl

@[simp] theorem y_between : (p.between q t).y = p.y + t * (q.y - p.y) := rfl

@[simp] theorem carried_between (i : Nat) (h : i < k) :
    (p.between q t).carried[i] = p.carried[i] + t * (q.carried[i] - p.carried[i]) :=
  Vector.getElem_zipWith _

theorem between_zero : p.between q 0 = p := by
  apply ext_axes <;> simp

theorem between_one : p.between q 1 = q := by
  apply ext_axes <;> simp

/-- A share of a share of the way is their product. -/
theorem between_between : p.between (p.between q s) t = p.between q (t * s) := by
  apply ext_axes
  · simp only [x_between]
    ring
  · simp only [y_between]
    ring
  · intro i h
    simp only [carried_between]
    ring

/-- One step of `n` covers the share `1 / n`. -/
theorem between_add_step (n : ℝ) : p.between q s + (q - p) / n = p.between q (s + 1 / n) := by
  apply ext_axes
  · simp only [x_add, x_div, x_sub, x_between]
    ring
  · simp only [y_add, y_div, y_sub, y_between]
    ring
  · intro i h
    simp only [carried_add, carried_div, carried_sub, carried_between]
    ring

theorem planarDist_between : (p.between q s).planarDist (p.between q t) = |t - s| * p.planarDist q := by
  have hsq : (p.x + t * (q.x - p.x) - (p.x + s * (q.x - p.x))) ^ 2
      + (p.y + t * (q.y - p.y) - (p.y + s * (q.y - p.y))) ^ 2
      = (t - s) ^ 2 * ((q.x - p.x) ^ 2 + (q.y - p.y) ^ 2) := by
    ring
  unfold planarDist
  rw [x_between, y_between, x_between, y_between, hsq, Real.sqrt_mul (sq_nonneg _),
    Real.sqrt_sq_eq_abs]

/-- Adding the step of `n` pieces `i` times covers the share `i / n`. -/
theorem walk_step (n i : Nat) : p.walk ((q - p) / (n : ℝ)) i = p.between q (i / n) := by
  induction i with
  | zero => rw [Nat.cast_zero, zero_div, between_zero, walk]
  | succ i ih =>
    rw [walk, ih, between_add_step, Nat.cast_succ, add_div]

end Position

namespace Segmenter

variable (s : Segmenter ℝ) (target : Position ℝ k) (joints : Joints ℝ k)

/-- **The reference points lie evenly on the way to the target.** -/
theorem referencePoint_eq {n i : Nat} (hn : 0 < n) (hi : i ≤ n) :
    s.referencePoint target joints n i
      = (s.geometry.position joints).between target (i / n) := by
  unfold referencePoint
  rcases Nat.eq_or_lt_of_le hi with heq | hlt
  · -- the snap onto the target
    have hone : ((i : ℝ) / n) = 1 := by
      rw [heq]
      exact div_self (Nat.cast_ne_zero.mpr hn.ne')
    rw [if_neg (by omega), hone, Position.between_one]
  · have hcast : (Scalar.ofInt n : ℝ) = (n : ℝ) := Int.cast_natCast n
    rw [if_pos hlt, hcast]
    exact Position.walk_step _ _ _ _

/-- The pieces of a line are equally long. -/
theorem planarDist_referencePoint {n i : Nat} (hi : i < n) :
    (s.referencePoint target joints n i).planarDist (s.referencePoint target joints n (i + 1))
      = (s.geometry.position joints).planarDist target / n := by
  have hn : 0 < n := by omega
  have hshare : ((i + 1 : ℕ) / n - i / n : ℝ) = 1 / n := by
    rw [Nat.cast_succ]
    ring
  rw [referencePoint_eq s target joints hn hi.le, referencePoint_eq s target joints hn hi,
    Position.planarDist_between, hshare, abs_of_pos (by positivity), one_div_mul_eq_div]

/-! ## How many pieces -/

variable {s target joints} {rapid : Bool}

theorem start_segmenting_iff :
    (s.start target joints rapid).segmenting = true
      ↔ rapid = false ∧ s.maxLength < (s.geometry.position joints).planarDist target := by
  rw [start_segmenting_eq_true_iff, Position.planarNorm_sub]
  exact and_congr_right fun _ => decide_eq_true_iff

theorem start_iterations_of_segmenting (h : (s.start target joints rapid).segmenting = true) :
    (s.start target joints rapid).iterations
      = min ⌈(s.geometry.position joints).planarDist target / s.maxLength⌉₊ maxPieces := by
  rw [start_iterations_eq_pieces h, Position.planarNorm_sub]
  rfl

section

variable (hL : 0 < s.maxLength)

include hL

/-- A line has two pieces or more exactly when it is cut up. -/
theorem two_le_iterations_iff :
    2 ≤ (s.start target joints rapid).iterations
      ↔ (s.start target joints rapid).segmenting = true := by
  cases hseg : (s.start target joints rapid).segmenting with
  | false =>
    rw [start_iterations_of_not_segmenting hseg]
    simp
  | true =>
    have hlong := (start_segmenting_iff.mp hseg).2
    have hceil : 1 < ⌈(s.geometry.position joints).planarDist target / s.maxLength⌉₊ := by
      rw [Nat.lt_ceil, Nat.cast_one]
      exact (one_lt_div hL).mpr hlong
    rw [start_iterations_of_segmenting hseg]
    exact iff_of_true (Nat.le_min.mpr ⟨hceil, by decide⟩) rfl

theorem one_le_iterations : 1 ≤ (s.start target joints rapid).iterations := by
  cases hseg : (s.start target joints rapid).segmenting with
  | false => exact (start_iterations_of_not_segmenting hseg).ge
  | true => exact Nat.le_of_succ_le ((two_le_iterations_iff hL).mpr hseg)

/-- **A line whose count was not cut off has the fewest pieces that are short enough.** -/
theorem isLeast_iterations
    (hcount : (s.geometry.position joints).planarDist target ≤ maxPieces * s.maxLength) :
    IsLeast {n : ℕ | 0 < n ∧ (s.geometry.position joints).planarDist target ≤ n * s.maxLength}
      (s.start target joints false).iterations := by
  cases hseg : (s.start target joints false).segmenting with
  | false =>
    have hshort : (s.geometry.position joints).planarDist target ≤ s.maxLength := by
      by_contra hlong
      have := start_segmenting_iff.mpr ⟨rfl, not_le.mp hlong⟩
      rw [hseg] at this
      cases this
    rw [start_iterations_of_not_segmenting hseg]
    refine ⟨⟨Nat.one_pos, ?_⟩, fun n hn => hn.1⟩
    rw [Nat.cast_one, one_mul]
    exact hshort
  | true =>
    have hceil : ⌈(s.geometry.position joints).planarDist target / s.maxLength⌉₊ ≤ maxPieces := by
      rw [Nat.ceil_le, div_le_iff₀ hL]
      exact hcount
    have hpos : 1 ≤ (s.start target joints false).iterations := one_le_iterations hL
    rw [start_iterations_of_segmenting hseg, min_eq_left hceil] at hpos ⊢
    refine ⟨⟨hpos, ?_⟩, fun n hn => ?_⟩
    · rw [← div_le_iff₀ hL]
      exact Nat.le_ceil _
    · rw [Nat.ceil_le, div_le_iff₀ hL]
      exact hn.2

/-- A count that was cut off is the limit. -/
theorem iterations_of_lt
    (hcount : maxPieces * s.maxLength < (s.geometry.position joints).planarDist target) :
    (s.start target joints false).iterations = maxPieces := by
  have hone : (1 : ℝ) ≤ (maxPieces : ℝ) := Nat.one_le_cast.mpr (by decide)
  have hlong : s.maxLength < (s.geometry.position joints).planarDist target := by
    nlinarith
  rw [start_iterations_of_segmenting (start_segmenting_iff.mpr ⟨rfl, hlong⟩)]
  refine min_eq_right (Nat.lt_ceil.mpr ?_).le
  rwa [lt_div_iff₀ hL]

end

/-! ## What a run shows of it -/

/-- Behind `i` pulls that met no failure the line stands at its reference point `i`. -/
theorem segmentTarget_after {i : Nat} (hL : 0 < s.maxLength) (hpos : i ≠ 0)
    (hi : i ≤ (s.start target joints rapid).iterations)
    (hreach : ∀ j < i, s.geometry.Solves
      (s.referencePoint target joints (s.start target joints rapid).iterations (j + 1))) :
    ((s.start target joints rapid).after Session.never i).segmentTarget
      = (s.geometry.position joints).between target
          (i / (s.start target joints rapid).iterations) := by
  rw [Session.after_never rfl (s.start_visits target joints rapid) hi hreach,
    ← s.referencePoint_eq target joints (one_le_iterations hL) hi]
  exact if_neg hpos

end Segmenter

open Segmenter in
/--
**A line is divided evenly, into the fewest pieces no longer than the limit.**

The line stands at its start and, behind every pull, at the waypoint it came to.
-/
theorem line_divided_evenly {s : Segmenter ℝ} (hL : 0 < s.maxLength) (target : Position ℝ k)
    (joints : Joints ℝ k) :
    let start := s.geometry.position joints
    let D := √((target.x - start.x) ^ 2 + (target.y - start.y) ^ 2)
    let line := s.start target joints false
    let n := line.iterations
    let solved (i : Nat) := s.geometry.Solves (s.referencePoint target joints n i)
    let stand (i : Nat) := if i = 0 then start else (line.after Session.never i).segmentTarget
    -- it is cut up if and only if it is too long for one piece
    (line.segmenting = true ↔ s.maxLength < D)
      ∧ (2 ≤ n ↔ line.segmenting = true)
      -- as long as every waypoint was solved, it stands at even shares of the way
      ∧ (∀ i ≤ n, (∀ j < i, solved (j + 1)) → stand i = start.between target (i / n))
      ∧ (∀ i < n, (∀ j < i + 1, solved (j + 1)) →
          (stand i).planarDist (stand (i + 1)) = D / n)
      -- fewer pieces would be too long, unless the count was cut off
      ∧ (D ≤ maxPieces * s.maxLength →
          IsLeast {m : ℕ | 0 < m ∧ D ≤ m * s.maxLength} n ∧ D / n ≤ s.maxLength)
      ∧ (maxPieces * s.maxLength < D → n = maxPieces)
      -- and a rapid move is one piece
      ∧ (s.start target joints true).iterations = 1 := by
  intro start D line n solved stand
  have hn : 0 < n := one_le_iterations hL
  have hstand : ∀ i ≤ n, (∀ j < i, solved (j + 1)) → stand i = start.between target (i / n) := by
    intro i hi hsolved
    by_cases hzero : i = 0
    · subst hzero
      show start = _
      rw [Nat.cast_zero, zero_div, Position.between_zero]
    · show (if i = 0 then start else _) = _
      rw [if_neg hzero]
      exact segmentTarget_after hL hzero hi hsolved
  refine ⟨?_, two_le_iterations_iff hL, hstand, ?_, ?_, iterations_of_lt hL, ?_⟩
  · rw [start_segmenting_iff]
    exact and_iff_right rfl
  · intro i hi hsolved
    have hshare : ((i + 1 : ℕ) / n - i / n : ℝ) = 1 / n := by
      rw [Nat.cast_succ]
      ring
    rw [hstand i hi.le fun j hj => hsolved j (by omega), hstand (i + 1) hi hsolved,
      Position.planarDist_between, hshare, abs_of_pos (by positivity), one_div_mul_eq_div]
    rfl
  · intro hcount
    have hleast := isLeast_iterations hL hcount
    refine ⟨hleast, ?_⟩
    rw [div_le_iff₀ (Nat.cast_pos.mpr hn), mul_comm]
    exact hleast.1.2
  · refine start_iterations_of_not_segmenting (Bool.eq_false_iff.mpr fun h => ?_)
    cases (start_segmenting_iff.mp h).1

/-- With its joints at zero the arm is stretched along the first axis. -/
theorem Geometry.position_holed (carried : Vector ℝ k) :
    holed.position ⟨⟨0, 0, carried⟩⟩ = ⟨⟨4, 0, carried⟩⟩ := by
  have hzero : Scalar.toRadians (0 : ℝ) = 0 := zero_mul _
  have htip : holed.forward ⟨0, 0⟩ = ⟨4, 0⟩ := by
    show Planar.mk ((3 : ℝ) * Real.cos (Scalar.toRadians 0) + 1 * Real.cos (Scalar.toRadians 0))
      (3 * Real.sin (Scalar.toRadians 0) + 1 * Real.sin (Scalar.toRadians 0)) = ⟨4, 0⟩
    rw [hzero, Real.cos_zero, Real.sin_zero]
    norm_num
  show Position.mk ⟨(holed.forward ⟨0, 0⟩).x, (holed.forward ⟨0, 0⟩).y, carried⟩ = _
  rw [htip]

/-- A line of just twice the limit has two pieces, and a carried axis is half way between
them. -/
theorem line_divided_in_two :
    let s : Segmenter ℝ := .forArm Geometry.holed 0
    let target : Position ℝ 1 := ⟨⟨0, 0, #v[10]⟩⟩
    let line := s.start target ⟨⟨0, 0, #v[0]⟩⟩ false
    0 < s.maxLength ∧ line.iterations = 2
      ∧ (line.after Session.never 1).segmentTarget = ⟨⟨2, 0, #v[5]⟩⟩ := by
  intro s target line
  have hL : s.maxLength = 2 := Int.cast_ofNat 2
  have hpos : 0 < s.maxLength := by
    rw [hL]
    exact two_pos
  obtain ⟨-, -, hstand, -, hleast, -⟩ := line_divided_evenly hpos target ⟨⟨0, 0, #v[0]⟩⟩
  rw [show s.geometry = Geometry.holed from rfl, Geometry.position_holed] at hstand hleast
  have hdist : √(((0 : ℝ) - 4) ^ 2 + (0 - 0) ^ 2) = 4 := by
    rw [sub_zero, zero_pow two_ne_zero, add_zero, Real.sqrt_sq_eq_abs]
    norm_num
  have htwo : line.iterations = 2 := by
    have hmany : (2 : ℝ) ≤ Segmenter.maxPieces := Nat.ofNat_le_cast.mpr (by decide)
    have hcount : √(((0 : ℝ) - 4) ^ 2 + (0 - 0) ^ 2) ≤ Segmenter.maxPieces * s.maxLength := by
      rw [hdist, hL]
      linarith
    refine (hleast hcount).1.unique ⟨⟨two_pos, ?_⟩, fun n hn => ?_⟩
    · show √(((0 : ℝ) - 4) ^ 2 + (0 - 0) ^ 2) ≤ _
      rw [hdist, hL, Nat.cast_ofNat]
      norm_num
    · have hn : √(((0 : ℝ) - 4) ^ 2 + (0 - 0) ^ 2) ≤ n * s.maxLength := hn.2
      rw [hdist, hL] at hn
      exact Nat.ofNat_le_cast.mp (show (2 : ℝ) ≤ n by linarith)
  rw [show (s.start target ⟨⟨0, 0, #v[0]⟩⟩ false).iterations = 2 from htwo] at hstand
  have hmid : (⟨⟨4, 0, #v[0]⟩⟩ : Position ℝ 1).between target ((1 : ℕ) / (2 : ℕ))
      = ⟨⟨2, 0, #v[5]⟩⟩ := by
    apply Position.ext_axes
    · show (4 : ℝ) + (1 : ℕ) / (2 : ℕ) * (0 - 4) = 2
      norm_num
    · show (0 : ℝ) + (1 : ℕ) / (2 : ℕ) * (0 - 0) = 0
      norm_num
    · intro i hi
      have hi : i = 0 := by omega
      subst hi
      rw [Position.carried_between]
      show (0 : ℝ) + (1 : ℕ) / (2 : ℕ) * (10 - 0) = 5
      norm_num
  refine ⟨hpos, htwo, (hstand 1 one_le_two fun j hj => ?_).trans hmid⟩
  have hj : j = 0 := by omega
  subst hj
  show s.geometry.Solves (s.referencePoint target ⟨⟨0, 0, #v[0]⟩⟩ 2 1)
  rw [s.referencePoint_eq target _ two_pos one_le_two, show s.geometry = Geometry.holed from rfl,
    Geometry.position_holed, hmid, Geometry.solves_iff, Geometry.reaches_iff]
  show (2 : ℝ) * 2 + 0 * 0 ≤ (3 + 1) * (3 + 1)
  norm_num

end ScaraArm
