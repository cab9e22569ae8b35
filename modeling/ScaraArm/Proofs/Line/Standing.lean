import ScaraArm.Proofs.Binary64.Inverse
import ScaraArm.Proofs.Line.RunLaw

/-!
# Where a line stands

A line remembers the waypoint it came to. As long as it is not over, that is the waypoint it
handed out last: requests to stop leave no trace in a line that they have not ended, so it is at
the point it would have come to without any (`Session.atPoint`).

A pull steps first and looks for a request to stop afterwards. So the pull that ends a line for a
request has already moved on, and the line then stands at a waypoint that was never handed out,
the one behind the last. Every other way to end leaves it where it handed something out: a
failure at the point out of reach, and completion at the target, where the last waypoint was.
-/

namespace ScaraArm

variable {α : Type} {k : Nat}

/-- What is handed out for a solved or refused waypoint. -/
def Pull.ofSolution : Except (Unreachable α) (Joints α k) → Pull α k
  | .ok q => .waypoint q
  | .error e => .unreachable e

theorem Pull.ofSolution_eq_waypoint_iff {r : Except (Unreachable α) (Joints α k)}
    {q : Joints α k} : Pull.ofSolution r = .waypoint q ↔ r = .ok q := by
  cases r with
  | ok q' => simp [ofSolution]
  | error e => simp [ofSolution]

variable [Scalar α]

namespace Session

variable {line : Session α k} {w : Nat → Position α k} {stop : Nat → Bool} {i j : Nat}

theorem not_isFinished_of_le (hij : i ≤ j) (h : (line.after stop j).isFinished = false) :
    (line.after stop i).isFinished = false := by
  rw [Bool.eq_false_iff] at h ⊢
  exact fun hfin => h (by rw [after_of_isFinished hfin hij]; exact hfin)

/-- Only a line that is not over hands out anything. -/
theorem not_isFinished_of_taken (h : line.taken stop i ≠ .finished) :
    (line.after stop i).isFinished = false :=
  Bool.eq_false_iff.mpr fun hfin => h (taken_of_isFinished hfin (Nat.le_refl i))

/-- **A line that is not over is at the point it came to**, whatever requests to stop there
were. -/
theorem after_of_not_isFinished (hstart : line.remaining = line.iterations + 1)
    (hw : line.Visits w) (h : (line.after stop i).isFinished = false) :
    i ≤ line.iterations ∧ line.after stop i = line.atPoint w i := by
  induction i with
  | zero => exact ⟨Nat.zero_le _, (atPoint_zero hstart).symm⟩
  | succ i ih =>
    obtain ⟨hi, hat⟩ := ih (not_isFinished_of_le (Nat.le_succ i) h)
    rw [after_succ, hat] at h ⊢
    rcases pull_cases (stop i) (line.atPoint w i) with
      ⟨hfin, hpull⟩ | ⟨-, e, -, hpull⟩ | ⟨-, q, -, -, hpull⟩ | ⟨-, q, -, hmore, -, hpull⟩
    · rw [hpull, hfin] at h
      cases h
    · rw [hpull] at h
      cases h
    · rw [hpull] at h
      cases h
    · -- a waypoint was handed out, so the pull was not the last
      have hleft : line.iterations + 1 - i - 1 ≠ 0 := not_isFinished_iff.mp hmore
      have hlt : i < line.iterations := by omega
      rw [hpull]
      exact ⟨hlt, advance_atPoint hw hlt⟩

/-- A line is not over right behind its waypoints, and nowhere else. -/
theorem not_isFinished_after_iff :
    (line.after stop (i + 1)).isFinished = false ↔ ∃ q, line.taken stop i = .waypoint q := by
  unfold taken
  rw [after_succ]
  rcases pull_cases (stop i) (line.after stop i) with
    ⟨hfin, hpull⟩ | ⟨-, e, -, hpull⟩ | ⟨-, q, -, -, hpull⟩ | ⟨-, q, -, hmore, -, hpull⟩
  · rw [hpull, hfin]
    simp
  · rw [hpull]
    simp [isFinished, finish]
  · rw [hpull]
    simp [isFinished, finish]
  · rw [hpull, hmore]
    exact iff_of_true rfl ⟨q, rfl⟩

/-- **A pull that ends a line without a word has stepped on**: there was no waypoint left, or a
request to stop. -/
theorem after_of_silent (h : (line.after stop i).isFinished = false)
    (hsilent : line.taken stop i = .finished) :
    line.after stop (i + 1) = (line.after stop i).advance.finish
      ∧ ((line.after stop i).advance.isFinished = true ∨ stop i = true) := by
  unfold taken at hsilent
  rw [after_succ]
  rcases pull_cases (stop i) (line.after stop i) with
    ⟨hfin, -⟩ | ⟨-, e, -, hpull⟩ | ⟨-, q, -, hlast, hpull⟩ | ⟨-, q, -, -, -, hpull⟩
  · rw [h] at hfin
    cases hfin
  · rw [hpull] at hsilent
    cases hsilent
  · rw [hpull]
    exact ⟨rfl, hlast⟩
  · rw [hpull] at hsilent
    cases hsilent

end Session

namespace Segmenter

variable {s : Segmenter α} {target : Position α k} {joints : Joints α k} {rapid : Bool}
  {stop : Nat → Bool} {i j : Nat}

/-- A line that is not over steps to its next reference point. -/
theorem advance_start_after
    (h : ((s.start target joints rapid).after stop i).isFinished = false) :
    ((s.start target joints rapid).after stop i).advance.segmentTarget
      = s.referencePoint target joints (s.start target joints rapid).iterations (i + 1) := by
  have hw := s.start_visits target joints rapid
  obtain ⟨hi, hat⟩ := Session.after_of_not_isFinished rfl hw h
  rw [hat]
  rcases Nat.lt_or_eq_of_le hi with hlt | heq
  · rw [Session.advance_atPoint hw hlt]
    rfl
  · -- behind the last waypoint it steps onto the target again
    have hleft : ¬ 1 < (s.start target joints rapid).iterations + 1 - i - 1 := by omega
    rw [referencePoint_of_le (by omega)]
    unfold Session.advance Session.atPoint
    simp only [decide_eq_false hleft, Bool.and_false]
    rfl

/-- An item is handed out for the reference point that its pull steps to, and the line then
stands there. -/
theorem item_of_start (hitem : (s.start target joints rapid).taken stop i ≠ .finished) :
    (s.start target joints rapid).taken stop i
        = .ofSolution (s.geometry.joints
          (s.referencePoint target joints (s.start target joints rapid).iterations (i + 1)))
      ∧ ((s.start target joints rapid).after stop (i + 1)).segmentTarget
        = s.referencePoint target joints (s.start target joints rapid).iterations (i + 1) := by
  have hmore := Session.not_isFinished_of_taken hitem
  have hstep := advance_start_after hmore
  have harm := (Session.after_of_not_isFinished rfl (s.start_visits target joints rapid) hmore).2
  have harm : ((s.start target joints rapid).after stop i).geometry = s.geometry := by
    rw [harm]
    rfl
  rw [← hstep, ← harm]
  unfold Session.taken at hitem ⊢
  rw [Session.after_succ]
  rcases Session.pull_cases (stop i) ((s.start target joints rapid).after stop i) with
    ⟨hfin, -⟩ | ⟨-, e, hj, hpull⟩ | ⟨-, q, -, -, hpull⟩ | ⟨-, q, hj, -, -, hpull⟩
  · rw [hmore] at hfin
    cases hfin
  · rw [hpull, hj]
    exact ⟨rfl, rfl⟩
  · rw [hpull] at hitem
    exact absurd rfl hitem
  · rw [hpull, hj]
    exact ⟨rfl, rfl⟩

/-- The same of an item that is known to be a waypoint. -/
theorem waypoint_of_start {q : Joints α k}
    (hq : (s.start target joints rapid).taken stop i = .waypoint q) :
    s.geometry.joints
          (s.referencePoint target joints (s.start target joints rapid).iterations (i + 1))
        = .ok q
      ∧ ((s.start target joints rapid).after stop (i + 1)).segmentTarget
        = s.referencePoint target joints (s.start target joints rapid).iterations (i + 1) := by
  have hitem : (s.start target joints rapid).taken stop i ≠ .finished := by
    rw [hq]
    exact fun h => by cases h
  obtain ⟨htaken, hstand⟩ := item_of_start hitem
  exact ⟨Pull.ofSolution_eq_waypoint_iff.mp (htaken.symm.trans hq), hstand⟩

/-- Behind a waypoint, a pull that hands out nothing leaves the line at the next reference
point; if that is not the target yet, a request to stop was pending. -/
theorem stand_of_silent
    (h : ((s.start target joints rapid).after stop i).isFinished = false)
    (hsilent : (s.start target joints rapid).taken stop i = .finished) (hij : i < j) :
    ((s.start target joints rapid).after stop j).segmentTarget
        = s.referencePoint target joints (s.start target joints rapid).iterations (i + 1)
      ∧ (i < (s.start target joints rapid).iterations → stop i = true) := by
  obtain ⟨hnext, hlast⟩ := Session.after_of_silent h hsilent
  have hover : ((s.start target joints rapid).after stop (i + 1)).isFinished = true := by
    rw [hnext]
    rfl
  refine ⟨?_, fun hi => hlast.resolve_left fun hfin => ?_⟩
  · rw [Session.after_of_isFinished hover hij, hnext]
    exact advance_start_after h
  · have hat := (Session.after_of_not_isFinished rfl (s.start_visits target joints rapid) h).2
    rw [hat] at hfin
    have hleft : (s.start target joints rapid).iterations + 1 - i - 1 = 0 :=
      Session.isFinished_iff.mp hfin
    omega

end Segmenter

/--
**A line stands at the waypoint it handed out last, unless a request to stop ended it.**

Item `i` is the last that the first `j` pulls of a line handed out. It was handed out for
reference point `i + 1`, and this is where the line stands: right behind the pull, behind a
failure, and behind completion. But if the next pull was stopped with waypoints left, the line
stands at the one after, for which nothing was handed out.
-/
theorem stand_of_line (s : Segmenter α) (target : Position α k) (joints : Joints α k)
    (rapid : Bool) (stop : Nat → Bool) {i j : Nat} (hij : i < j)
    (hitem : (s.start target joints rapid).taken stop i ≠ .finished)
    (hsilent : ∀ m, i < m → m < j → (s.start target joints rapid).taken stop m = .finished) :
    let line := s.start target joints rapid
    let w := s.referencePoint target joints line.iterations
    let stopped : Prop := (∃ q, line.taken stop i = .waypoint q) ∧ i + 1 < j
      ∧ stop (i + 1) = true ∧ i + 1 < line.iterations
    line.taken stop i = .ofSolution (s.geometry.joints (w (i + 1)))
      ∧ (¬ stopped → (line.after stop j).segmentTarget = w (i + 1))
      ∧ (stopped → (line.after stop j).segmentTarget = w (i + 2)) := by
  intro line w stopped
  obtain ⟨htaken, hstand⟩ := Segmenter.item_of_start hitem
  refine ⟨htaken, fun hgo => ?_, ?_⟩
  · rcases Nat.eq_or_lt_of_le (Nat.succ_le_of_lt hij) with heq | hlt
    · rw [← heq]
      exact hstand
    cases hfin : (line.after stop (i + 1)).isFinished with
    | true =>
      rw [Session.after_of_isFinished hfin hlt.le]
      exact hstand
    | false =>
      -- nothing was left to hand out, so both points are the target
      obtain ⟨hnext, hstop⟩ := Segmenter.stand_of_silent hfin (hsilent _ (Nat.lt_succ_self i) hlt) hlt
      have hend : line.iterations ≤ i + 1 := Nat.le_of_not_lt fun hi =>
        hgo ⟨Session.not_isFinished_after_iff.mp hfin, hlt, hstop hi, hi⟩
      rw [hnext]
      show w (i + 2) = w (i + 1)
      exact (Segmenter.referencePoint_of_le (by omega)).trans
        (Segmenter.referencePoint_of_le hend).symm
  · rintro ⟨hwaypoint, hlt, -, -⟩
    have hmore := Session.not_isFinished_after_iff.mpr hwaypoint
    exact (Segmenter.stand_of_silent hmore (hsilent _ (Nat.lt_succ_self i) hlt) hlt).1

namespace Binary64

/-- The sample arm, with functions of the circle that are right at the angle zero. -/
def levelArm : Arm .level :=
  @Geometry.mk Float (scalar .level) sampleArm.lower sampleArm.upper sampleArm.elbow
    sampleArm.convention sampleArm.lower_pos sampleArm.upper_pos

end Binary64

open Binary64 in
/-- A line inwards from the stretched arm, stopped behind its first pull, stands at its second
reference point. -/
theorem stand_of_the_stopped_line :
    letI : Scalar Float := scalar .level
    let s : Segmenter Float := .forArm levelArm 0
    let target : Position Float 1 := ⟨ofInt 800, ofInt 0, #v[ofInt 3]⟩
    let line := s.start target (.zero 1) false
    let stop : Nat → Bool := fun i => decide (i = 1)
    line.taken stop 0 ≠ .finished ∧ (∀ m, 0 < m → m < 2 → line.taken stop m = .finished)
      ∧ (line.after stop 2).segmentTarget = s.referencePoint target (.zero 1) line.iterations 2 := by
  let _ : Scalar Float := scalar .level
  intro s target line stop
  have hfirst : line.taken stop 0
      = .waypoint ⟨ofInt 0, ofInt 0, #v[.ofBits 0x3FA47AE147AE147B]⟩ := by decide +kernel
  have hitem : line.taken stop 0 ≠ .finished := by
    rw [hfirst]
    exact fun h => by cases h
  have hsilent : ∀ m, 0 < m → m < 2 → line.taken stop m = .finished := by
    intro m hpos hm
    obtain rfl : m = 1 := by omega
    decide +kernel
  have hleft : 0 + 1 < line.iterations := by decide +kernel
  obtain ⟨-, -, hstopped⟩ :=
    stand_of_line s target (.zero 1) false stop (Nat.zero_lt_two) hitem hsilent
  exact ⟨hitem, hsilent, hstopped ⟨⟨_, hfirst⟩, Nat.one_lt_two, rfl, hleft⟩⟩

open Binary64 in
/-- For the point where that line stands, nothing was handed out: the joints handed out last
are those of the point before. -/
theorem stopped_line_stands_ahead :
    letI : Scalar Float := scalar .level
    let s : Segmenter Float := .forArm levelArm 0
    let line := s.start (⟨ofInt 800, ofInt 0, #v[ofInt 3]⟩ : Position Float 1) (.zero 1) false
    let stop : Nat → Bool := fun i => decide (i = 1)
    ∃ q, line.taken stop 0 = .waypoint q ∧ line.taken stop 1 = .finished
      ∧ (line.after stop 1).segmentTarget.x = ofInt 948
      ∧ (line.after stop 2).segmentTarget.x = ofInt 946
      ∧ s.geometry.joints (line.after stop 1).segmentTarget = .ok q
      ∧ s.geometry.joints (line.after stop 2).segmentTarget ≠ .ok q := by
  refine ⟨⟨ofInt 0, ofInt 0, #v[.ofBits 0x3FA47AE147AE147B]⟩, ?_⟩
  decide +kernel

end ScaraArm
