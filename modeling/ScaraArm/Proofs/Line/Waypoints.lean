import ScaraArm.Line.Segmenter
import ScaraArm.Proofs.Binary64.Counting
import ScaraArm.Proofs.Binary64.Quotient
import ScaraArm.Proofs.Line.Pulls

/-!
# The waypoints of a line

A line that is cut into `n` pieces has `n` waypoints. The first `n - 1` are reached from the
start by adding the same step again and again; the last is the target itself. This is said
without a session: `referencePoint` knows only the segmenter, the start, the target and `n`.

What ties a session to these points is that each pull moves from one of them to the next
(`Session.Visits`). A started line does, whatever the arithmetic. It also has at least one
piece, and that does depend on the arithmetic: in doubles a line that is longer than the longest
piece has at least two, which is a fact about quotients.
-/

namespace ScaraArm

variable {α : Type} [Scalar α] {k : Nat}

/-- The point that is `i` steps away, by adding the step `i` times. -/
def Position.walk (start step : Position α k) : Nat → Position α k
  | 0 => start
  | i + 1 => walk start step i + step

namespace Segmenter

/-- Waypoint `i` of a line that is cut into `n` pieces; the start of the line for `i = 0`. -/
def referencePoint (s : Segmenter α) (target : Position α k) (joints : Joints α k) (n i : Nat) :
    Position α k :=
  let start := s.geometry.position joints
  if i < n then start.walk ((target - start) / (Scalar.ofInt n : α)) i else target

/-- From the last waypoint on there is the target only. -/
theorem referencePoint_of_le {s : Segmenter α} {target : Position α k} {joints : Joints α k}
    {n i : Nat} (h : n ≤ i) : s.referencePoint target joints n i = target :=
  if_neg (Nat.not_lt.mpr h)

/-- A segmenter as it can be come by: made for an arm, and given other lengths. -/
inductive Built : Segmenter α → Prop where
  | forArm (g : Geometry α) (family : Nat) : Built (.forArm g family)
  | withMaxLength {s : Segmenter α} (length : α) : Built s → Built (s.withMaxLength length)

/-- Copies of a segmenter listen to the same stop button. -/
theorem withMaxLength_family (s : Segmenter α) (length : α) :
    (s.withMaxLength length).family = s.family := by
  unfold withMaxLength
  split <;> rfl

/-- Copies of a segmenter cut lines up for the same arm. -/
theorem withMaxLength_geometry (s : Segmenter α) (length : α) :
    (s.withMaxLength length).geometry = s.geometry := by
  unfold withMaxLength
  split <;> rfl

/-- A length that is not usable never gets into a segmenter. -/
theorem Built.isPositive_maxLength (hdefault : Scalar.isPositive (defaultLength : α) = true)
    {s : Segmenter α} (h : s.Built) : Scalar.isPositive s.maxLength = true := by
  induction h with
  | forArm g family => exact hdefault
  | withMaxLength length _ ih =>
    unfold Segmenter.withMaxLength
    split
    · assumption
    · exact ih

/-- A line that is not cut up has one piece. -/
theorem start_iterations_of_not_segmenting {s : Segmenter α} {target : Position α k}
    {joints : Joints α k} {rapid : Bool} (h : (s.start target joints rapid).segmenting = false) :
    (s.start target joints rapid).iterations = 1 := by
  have h : (!rapid && Scalar.lt s.maxLength (target - s.geometry.position joints).planarNorm)
      = false := h
  unfold start
  simp [h]

/-- A line is cut up if it is no rapid move and longer than the longest piece. -/
theorem start_segmenting_eq_true_iff {s : Segmenter α} {target : Position α k}
    {joints : Joints α k} {rapid : Bool} :
    (s.start target joints rapid).segmenting = true ↔ rapid = false
      ∧ Scalar.lt s.maxLength (target - s.geometry.position joints).planarNorm = true := by
  rw [← Bool.not_eq_true', ← Bool.and_eq_true_iff]
  exact Iff.rfl

/-- A line that is cut up has as many pieces as its length takes. -/
theorem start_iterations_eq_pieces {s : Segmenter α} {target : Position α k}
    {joints : Joints α k} {rapid : Bool} (h : (s.start target joints rapid).segmenting = true) :
    (s.start target joints rapid).iterations
      = s.pieces (target - s.geometry.position joints).planarNorm :=
  if_pos h

end Segmenter

/-! ## From one point to the next -/

/-- Each pull of the line moves to the next of the points `w 1`, `w 2`, … -/
def Session.Visits (line : Session α k) (w : Nat → Position α k) : Prop :=
  ∀ i < line.iterations, w (i + 1)
    = if line.segmenting && decide (i + 1 < line.iterations) then
        (if i = 0 then line.segmentTarget else w i) + line.delta
      else line.finalTarget

/-- **A started line visits its reference points.** -/
theorem Segmenter.start_visits (s : Segmenter α) (target : Position α k) (joints : Joints α k)
    (rapid : Bool) :
    (s.start target joints rapid).Visits
      (s.referencePoint target joints (s.start target joints rapid).iterations) := by
  intro i hi
  by_cases hlast : i + 1 < (s.start target joints rapid).iterations
  · -- a line with a second piece is cut up
    have hseg : (s.start target joints rapid).segmenting = true := by
      by_contra hseg
      have hone := start_iterations_of_not_segmenting (Bool.eq_false_iff.mpr hseg)
      omega
    have hcut : (!rapid && Scalar.lt s.maxLength (target - s.geometry.position joints).planarNorm)
        = true := hseg
    rw [hseg, decide_eq_true hlast, Bool.and_self, if_pos rfl]
    unfold referencePoint
    simp only [if_pos hlast, if_pos hi]
    unfold start
    simp only [hcut, if_true]
    by_cases hi0 : i = 0
    · subst hi0
      rfl
    · rw [if_neg hi0]
      rfl
  · rw [decide_eq_false hlast, Bool.and_false]
    exact if_neg hlast

/-! ## In doubles -/

/-- The length of the longest piece where none is given is usable. -/
theorem Binary64.isPositive_defaultLength (circular : Circular) :
    @Scalar.isPositive Float (scalar circular) (@Segmenter.defaultLength Float (scalar circular))
      = true := by
  show ((ofInt 2).isFinite && decide (ofInt 0 < ofInt 2)) = true
  decide +kernel

/-- **What is longer than the longest piece is cut into two at least.** -/
theorem Binary64.two_le_pieces (circular : Circular) :
    letI : Scalar Float := scalar circular
    ∀ {s : Segmenter Float}, Scalar.isPositive s.maxLength = true →
      ∀ {distance : Float}, s.maxLength < distance → 2 ≤ s.pieces distance := by
  let _ : Scalar Float := scalar circular
  intro s hs distance hlt
  obtain ⟨a, hlength⟩ := exists_measures circular hs
  have hcount : min (1 + 1) Segmenter.maxPieces ≤ s.pieces distance :=
    min_le_ceilUpTo _ (by norm_num) (one_lt_div_of_lt hlength hlt)
  rwa [min_eq_left (by decide)] at hcount

/-- **A line has at least one piece**, however long it is. -/
theorem Binary64.one_le_iterations (circular : Circular) :
    letI : Scalar Float := scalar circular
    ∀ {s : Segmenter Float}, s.Built → ∀ (target : Position Float k) (joints : Joints Float k)
      (rapid : Bool), 1 ≤ (s.start target joints rapid).iterations := by
  let _ : Scalar Float := scalar circular
  intro s hs target joints rapid
  cases hseg : (s.start target joints rapid).segmenting with
  | false => exact (Segmenter.start_iterations_of_not_segmenting hseg).ge
  | true =>
    have hlt := of_decide_eq_true (Segmenter.start_segmenting_eq_true_iff.mp hseg).2
    have hpos := hs.isPositive_maxLength (isPositive_defaultLength circular)
    rw [Segmenter.start_iterations_eq_pieces hseg]
    exact one_le_two.trans (two_le_pieces circular hpos hlt)

end ScaraArm
