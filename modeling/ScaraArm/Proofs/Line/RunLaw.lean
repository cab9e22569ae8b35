import ScaraArm.Proofs.Line.Waypoints

/-!
# The run of a line

Pulled without a stop, a line of `n` pieces hands out the joints of its `n` waypoints, one a
pull, and then tells that it is over. A waypoint out of reach is reported once and ends the
line before its time.

The induction is over pulls. Its invariant is that a line which has met no failure yet is at
the point it came to (`atPoint`): the counter is `n + 1` less the pulls made, and the point
reached last is the reference point. The counter is one larger than the number of points
left because the line has one pull more than it has waypoints; that pull solves for the
target a second time, and cannot fail because the pull before it did not.
-/

namespace ScaraArm

variable {α : Type} [Scalar α] {k : Nat}

namespace Session

variable {line : Session α k} {w : Nat → Position α k} {i j : Nat}

/-- The line when it has come to point `i`. -/
def atPoint (line : Session α k) (w : Nat → Position α k) (i : Nat) : Session α k :=
  { line with
    remaining := line.iterations + 1 - i
    segmentTarget := if i = 0 then line.segmentTarget else w i }

theorem atPoint_zero (hstart : line.remaining = line.iterations + 1) : line.atPoint w 0 = line := by
  unfold atPoint
  rw [if_pos rfl, Nat.sub_zero, ← hstart]

theorem atPoint_not_isFinished (hi : i ≤ line.iterations) :
    (line.atPoint w i).isFinished = false := by
  rw [not_isFinished_iff]
  show line.iterations + 1 - i ≠ 0
  omega

/-! ## One pull of a line that has met no failure -/

theorem advance_atPoint (hw : line.Visits w) (hi : i < line.iterations) :
    (line.atPoint w i).advance = line.atPoint w (i + 1) := by
  have hleft : (1 < line.iterations + 1 - i - 1) = (i + 1 < line.iterations) :=
    propext (by omega)
  unfold advance atPoint
  simp only [hleft, if_neg (Nat.succ_ne_zero i), hw i hi]
  rw [Nat.sub_sub]

theorem Visits.last (hw : line.Visits w) (hpos : 1 ≤ line.iterations) :
    w line.iterations = line.finalTarget := by
  have hlast := hw (line.iterations - 1) (by omega)
  rw [Nat.sub_add_cancel hpos, decide_eq_false (Nat.lt_irrefl _), Bool.and_false] at hlast
  exact hlast

theorem pull_atPoint_of_ok {q : Joints α k} (hw : line.Visits w) (hi : i < line.iterations)
    (hq : line.geometry.joints (w (i + 1)) = .ok q) :
    (line.atPoint w i).pull false = (.waypoint q, line.atPoint w (i + 1)) := by
  have hadv := advance_atPoint hw hi
  rw [← hadv]
  refine pull_of_waypoint (atPoint_not_isFinished hi.le) ?_ ?_
  · rw [hadv]
    exact hq
  · rw [hadv]
    exact atPoint_not_isFinished hi

theorem pull_atPoint_of_error {e : Unreachable α} (hw : line.Visits w) (hi : i < line.iterations)
    (he : line.geometry.joints (w (i + 1)) = .error e) :
    (line.atPoint w i).pull false = (.unreachable e, (line.atPoint w (i + 1)).finish) := by
  have hadv := advance_atPoint hw hi
  rw [← hadv]
  refine pull_of_error (atPoint_not_isFinished hi.le) ?_
  rw [hadv]
  exact he

/-- The pull behind the last point solves for the target again, and tells the end. -/
theorem pull_atPoint_last (hw : line.Visits w) (hpos : 1 ≤ line.iterations)
    (hlast : line.geometry.Solves (w line.iterations)) :
    ((line.atPoint w line.iterations).pull false).1 = .finished
      ∧ ((line.atPoint w line.iterations).pull false).2.isFinished = true := by
  obtain ⟨q, hq⟩ := hlast
  rw [hw.last hpos] at hq
  have hleft : line.iterations + 1 - line.iterations - 1 = 0 := by omega
  have htarget : (line.atPoint w line.iterations).advance.segmentTarget = line.finalTarget := by
    unfold advance atPoint
    simp
  have hover : (line.atPoint w line.iterations).advance.isFinished = true := by
    rw [isFinished_iff]
    exact hleft
  have hpull : (line.atPoint w line.iterations).pull false = (.finished, _) :=
    pull_of_last (atPoint_not_isFinished (Nat.le_refl _)) (by rw [htarget]; exact hq) (Or.inl hover)
  rw [hpull]
  exact ⟨rfl, rfl⟩

/-! ## Many pulls -/

/-- **The invariant of a run.** A line that has met no failure is at the point it came to. -/
theorem after_never (hstart : line.remaining = line.iterations + 1) (hw : line.Visits w)
    (hi : i ≤ line.iterations) (hreach : ∀ j < i, line.geometry.Solves (w (j + 1))) :
    line.after never i = line.atPoint w i := by
  induction i with
  | zero => exact (atPoint_zero hstart).symm
  | succ i ih =>
    have hat := ih (by omega) (fun j hj => hreach j (by omega))
    obtain ⟨q, hq⟩ := hreach i (Nat.lt_succ_self i)
    rw [after_succ, hat]
    exact congrArg Prod.snd (pull_atPoint_of_ok hw hi hq)

theorem isFinished_after_failure (hstart : line.remaining = line.iterations + 1)
    (hw : line.Visits w) (hj : j < line.iterations) (hfail : ¬ line.geometry.Solves (w (j + 1))) :
    (line.after never (j + 1)).isFinished = true := by
  induction j using Nat.strongRecOn with
  | ind j ih =>
    by_cases hreach : ∀ i < j, line.geometry.Solves (w (i + 1))
    · obtain ⟨e, he⟩ := Geometry.not_solves_iff.mp hfail
      rw [after_succ, after_never hstart hw hj.le hreach]
      show ((line.atPoint w j).pull false).2.isFinished = true
      rw [pull_atPoint_of_error hw hj he]
      rfl
    · -- an earlier point had failed already
      push Not at hreach
      obtain ⟨i, hi, hfirst⟩ := hreach
      have hover := ih i hi (by omega) hfirst
      rw [after_of_isFinished hover (by omega)]
      exact hover

/-- What pulling a line without a stop hands out, when `w 1`, `w 2`, … are its points. -/
structure RunsThrough (line : Session α k) (w : Nat → Position α k) : Prop where
  /-- As long as no point was out of reach, a pull hands out the joints of the next point, or
  reports it with its coordinates and the arm's reach. -/
  handsOut : ∀ i < line.iterations, (∀ j < i, line.geometry.Solves (w (j + 1))) →
    line.taken never i
      = match line.geometry.joints (w (i + 1)) with
        | .ok q => .waypoint q
        | .error _ => .unreachable ⟨(w (i + 1)).x, (w (i + 1)).y, line.geometry.reach⟩
  /-- Behind the last point, and behind a point out of reach, nothing is handed out. -/
  silent : ∀ i, (line.iterations ≤ i ∨ ∃ j < i, j < line.iterations
      ∧ ¬ line.geometry.Solves (w (j + 1))) →
    line.taken never i = .finished
  /-- One pull more than there are points, and the line is over. -/
  ends : (line.after never (line.iterations + 1)).isFinished = true

/-- **The run law.** Pulled without a stop, a line runs through the points it visits. -/
theorem Visits.runsThrough (hstart : line.remaining = line.iterations + 1)
    (hpos : 1 ≤ line.iterations) (hw : line.Visits w) : line.RunsThrough w := by
  have hcomplete : (∀ j < line.iterations, line.geometry.Solves (w (j + 1))) →
      line.taken never line.iterations = .finished
        ∧ (line.after never (line.iterations + 1)).isFinished = true := by
    intro hreach
    have hlast : line.geometry.Solves (w line.iterations) := by
      have := hreach (line.iterations - 1) (by omega)
      rwa [Nat.sub_add_cancel hpos] at this
    unfold taken
    rw [after_succ, after_never hstart hw (Nat.le_refl _) hreach]
    exact pull_atPoint_last hw hpos hlast
  refine ⟨?_, ?_, ?_⟩
  · intro i hi hreach
    unfold taken
    rw [after_never hstart hw hi.le hreach]
    cases hj : line.geometry.joints (w (i + 1)) with
    | ok q => exact congrArg Prod.fst (pull_atPoint_of_ok hw hi hj)
    | error e =>
      rw [← Geometry.eq_of_joints_error hj]
      exact congrArg Prod.fst (pull_atPoint_of_error hw hi hj)
  · intro i hover
    by_cases hreach : ∀ j < line.iterations, j < i → line.geometry.Solves (w (j + 1))
    · -- no failure, so all points were handed out
      have hi : line.iterations ≤ i := by
        rcases hover with hi | ⟨j, hji, hj, hfail⟩
        · exact hi
        · exact absurd (hreach j hj hji) hfail
      obtain ⟨htaken, hfin⟩ := hcomplete fun j hj => hreach j hj (by omega)
      rcases Nat.eq_or_lt_of_le hi with heq | hlt
      · rw [← heq]
        exact htaken
      · exact taken_of_isFinished hfin hlt
    · push Not at hreach
      obtain ⟨j, hj, hji, hfail⟩ := hreach
      exact taken_of_isFinished (isFinished_after_failure hstart hw hj hfail) hji
  · by_cases hreach : ∀ j < line.iterations, line.geometry.Solves (w (j + 1))
    · exact (hcomplete hreach).2
    · push Not at hreach
      obtain ⟨j, hj, hfail⟩ := hreach
      have hfin := isFinished_after_failure hstart hw hj hfail
      rw [after_of_isFinished hfin (by omega)]
      exact hfin

theorem RunsThrough.taken_of_ok (h : line.RunsThrough w) (hi : i < line.iterations)
    (hreach : ∀ j < i, line.geometry.Solves (w (j + 1))) {q : Joints α k}
    (hq : line.geometry.joints (w (i + 1)) = .ok q) : line.taken never i = .waypoint q := by
  rw [h.handsOut i hi hreach, hq]

theorem RunsThrough.taken_of_not_solves (h : line.RunsThrough w) (hi : i < line.iterations)
    (hreach : ∀ j < i, line.geometry.Solves (w (j + 1)))
    (hfail : ¬ line.geometry.Solves (w (i + 1))) :
    line.taken never i
      = .unreachable ⟨(w (i + 1)).x, (w (i + 1)).y, line.geometry.reach⟩ := by
  obtain ⟨e, he⟩ := Geometry.not_solves_iff.mp hfail
  rw [h.handsOut i hi hreach, he]

/-- A run reports a failure only where a point is out of reach and none before it was. -/
theorem RunsThrough.failure (h : line.RunsThrough w) {e : Unreachable α}
    (htaken : line.taken never i = .unreachable e) :
    i < line.iterations ∧ ¬ line.geometry.Solves (w (i + 1))
      ∧ ∀ j < i, line.geometry.Solves (w (j + 1)) := by
  have hi : i < line.iterations := by
    by_contra hi
    rw [h.silent i (Or.inl (Nat.le_of_not_lt hi))] at htaken
    cases htaken
  have hreach : ∀ j < i, line.geometry.Solves (w (j + 1)) := by
    intro j hj
    by_contra hfail
    rw [h.silent i (Or.inr ⟨j, hj, by omega, hfail⟩)] at htaken
    cases htaken
  refine ⟨hi, ?_, hreach⟩
  rintro ⟨q, hq⟩
  rw [h.handsOut i hi hreach, hq] at htaken
  cases htaken

/-- **A run that cannot reach its last point reports exactly one failure.** -/
theorem RunsThrough.existsUnique_failure (h : line.RunsThrough w) (hpos : 1 ≤ line.iterations)
    (hlast : ¬ line.geometry.Solves (w line.iterations)) :
    ∃! i, ∃ e, line.taken never i = .unreachable e := by
  have hex : ∃ i, i < line.iterations ∧ ¬ line.geometry.Solves (w (i + 1)) :=
    ⟨line.iterations - 1, by omega, by rwa [Nat.sub_add_cancel hpos]⟩
  classical
  obtain ⟨hi, hfail⟩ := Nat.find_spec hex
  refine ⟨Nat.find hex, ?_, ?_⟩
  · -- the first point out of reach is reported
    have hreach : ∀ j < Nat.find hex, line.geometry.Solves (w (j + 1)) := by
      intro j hj
      by_contra hfirst
      exact Nat.find_min hex hj ⟨by omega, hfirst⟩
    exact ⟨_, h.taken_of_not_solves hi hreach hfail⟩
  · rintro i ⟨e, he⟩
    obtain ⟨hi', hfail', hreach'⟩ := h.failure he
    rcases Nat.lt_trichotomy i (Nat.find hex) with hlt | heq | hgt
    · exact absurd ⟨hi', hfail'⟩ (Nat.find_min hex hlt)
    · exact heq
    · exact absurd (hreach' _ hgt) hfail

end Session

/-! ## In doubles -/

/--
**Every line in doubles runs through its reference points.**

There is at least one, a single one when the line is not cut up, and the last is the target
bit for bit, so that no rounding of the steps before it is left. A run to a target out of
reach reports exactly one failure. Nothing is asked of the functions of the circle.
-/
theorem run_of_started_line (circular : Binary64.Circular) {k : Nat} :
    letI : Scalar Float := Binary64.scalar circular
    ∀ {s : Segmenter Float}, s.Built → ∀ (target : Position Float k) (joints : Joints Float k)
      (rapid : Bool),
      let line := s.start target joints rapid
      let w := s.referencePoint target joints line.iterations
      1 ≤ line.iterations
        ∧ (line.segmenting = false → line.iterations = 1)
        ∧ w line.iterations = target
        ∧ line.RunsThrough w
        ∧ (¬ s.geometry.Solves target →
            ∃! i, ∃ e, line.taken Session.never i = .unreachable e) := by
  let _ : Scalar Float := Binary64.scalar circular
  intro s hs target joints rapid line w
  have hpos : 1 ≤ line.iterations := Binary64.one_le_iterations circular hs target joints rapid
  have hrun : line.RunsThrough w := (s.start_visits target joints rapid).runsThrough rfl hpos
  have hlast : w line.iterations = target := if_neg (Nat.lt_irrefl _)
  refine ⟨hpos, Segmenter.start_iterations_of_not_segmenting, hlast, hrun, fun hfail => ?_⟩
  refine hrun.existsUnique_failure hpos ?_
  rw [hlast]
  exact hfail

/-- An arm that reaches 950 millimetres. -/
def Binary64.sampleArm : Geometry Float where
  lower := ofInt 500
  upper := ofInt 450
  elbow := .up
  convention := .absolute
  lower_pos := by decide +kernel
  upper_pos := by decide +kernel

/-- A line to a point a metre away reports one failure. -/
theorem run_of_started_line_to_a_metre :
    let s : Segmenter Float := .forArm Binary64.sampleArm 0
    let target : Position Float 1 := ⟨Binary64.ofInt 1000, Binary64.ofInt 0, #v[Binary64.ofInt 7]⟩
    s.Built ∧ ¬ s.geometry.Solves target
      ∧ ∃! i, ∃ e, (s.start target (.zero 1) false).taken Session.never i = .unreachable e := by
  intro s target
  have hs : s.Built := .forArm _ _
  have hfar : ¬ s.geometry.Solves target := by
    rw [Geometry.solves_iff, Bool.not_eq_true]
    decide +kernel
  exact ⟨hs, hfar, (run_of_started_line .native hs target (.zero 1) false).2.2.2.2 hfar⟩

end ScaraArm
