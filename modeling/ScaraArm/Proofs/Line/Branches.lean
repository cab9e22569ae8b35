import ScaraArm.Proofs.Line.RunLaw

/-!
# Lines of arms that differ in their branch

Elbow and convention choose among poses that put the tip at the same point. So two arms with
the same links may take a line with different joints, but not along different points: which
points they visit, how many there are, which of them is out of reach and when the line is over
is the same for both.

This compares two runs. The relation between them (`Session.Twins`) is that the two lines are
the same but for the arm. One pull keeps it, because a pull looks at the branch only when it
writes down the angles it hands out; many pulls keep it by induction, whatever requests to stop
come in between. What is handed out may then differ in the driven angles only (`Pull.Agree`),
and in that of the lower link only if the elbows differ: the convention never reaches it.
-/

namespace ScaraArm

variable {α : Type} [Scalar α] {k : Nat}

/-! ## Two arms -/

namespace Geometry

/-- The arms differ in their branch at most. -/
structure SameLinks (g h : Geometry α) : Prop where
  lower : g.lower = h.lower
  upper : g.upper = h.upper

variable {g h : Geometry α} {p : Position α k}

theorem SameLinks.reach_eq (hlinks : g.SameLinks h) : g.reach = h.reach := by
  unfold reach
  rw [hlinks.lower, hlinks.upper]

theorem SameLinks.solves_iff (hlinks : g.SameLinks h) : g.Solves p ↔ h.Solves p := by
  rw [Geometry.solves_iff, Geometry.solves_iff, reaches, reaches, hlinks.reach_eq]

/-- The direction of the lower link knows nothing of the convention. -/
theorem SameLinks.direction_eq (hlinks : g.SameLinks h) (helbow : g.elbow = h.elbow)
    (p : Planar α) : g.direction p = h.direction p := by
  unfold direction elbowCosine
  rw [hlinks.lower, hlinks.upper, helbow]

/-- What one arm refuses the other refuses with the same words. -/
theorem SameLinks.joints_error (hlinks : g.SameLinks h) {e : Unreachable α}
    (he : g.joints p = .error e) : h.joints p = .error e := by
  have hfar : ¬ h.Solves p := by
    rw [← hlinks.solves_iff]
    exact not_solves_iff.mpr ⟨e, he⟩
  obtain ⟨e', he'⟩ := not_solves_iff.mp hfar
  rw [he', eq_of_joints_error he', eq_of_joints_error he, hlinks.reach_eq]

/-- The joints of a position: the lower link as the elbow says, the carried axes taken over. -/
theorem q1_of_joints {q : Joints α k} (hq : g.joints p = .ok q) :
    q.q1 = Scalar.toDegrees (g.direction ⟨p.x, p.y⟩) ∧ q.carried = p.carried := by
  have hreach : g.reaches ⟨p.x, p.y⟩ = true := Geometry.solves_iff.mp ⟨q, hq⟩
  unfold joints at hq
  rw [inverse_eq hreach] at hq
  cases hq
  exact ⟨rfl, rfl⟩

end Geometry

/-! ## Two pulls -/

/-- The pulls are of one kind, with the same failure or the same carried axes. The angle of the
lower link is the same on the given condition. -/
inductive Pull.Agree (lower : Prop) : Pull α k → Pull α k → Prop where
  | waypoint {q r : Joints α k} (carried : q.carried = r.carried) (q1 : lower → q.q1 = r.q1) :
    Agree lower (.waypoint q) (.waypoint r)
  | unreachable (e : Unreachable α) : Agree lower (.unreachable e) (.unreachable e)
  | finished : Agree lower .finished .finished

namespace Session

variable {g h : Geometry α} {s t : Session α k}

/-- The lines are the same but for their arms. -/
structure Twins (g h : Geometry α) (s t : Session α k) : Prop where
  left : s.geometry = g
  right : t = { s with geometry := h }

theorem Twins.isFinished_eq (htwins : Twins g h s t) : t.isFinished = s.isFinished := by
  rw [htwins.right]
  rfl

theorem Twins.advance (htwins : Twins g h s t) : Twins g h s.advance t.advance := by
  obtain ⟨hleft, rfl⟩ := htwins
  exact ⟨hleft, rfl⟩

theorem Twins.finish (htwins : Twins g h s t) : Twins g h s.finish t.finish := by
  obtain ⟨hleft, rfl⟩ := htwins
  exact ⟨hleft, rfl⟩

/-- **One pull keeps lines the same but for their arms**, and what it hands out of the one
agrees with what it hands out of the other. -/
theorem Twins.pull (hlinks : g.SameLinks h) (htwins : Twins g h s t) (stop : Bool) :
    Pull.Agree (g.elbow = h.elbow) (s.pull stop).1 (t.pull stop).1
      ∧ Twins g h (s.pull stop).2 (t.pull stop).2 := by
  have hnext : Twins g h s.advance t.advance := htwins.advance
  have hpoint : t.advance.segmentTarget = s.advance.segmentTarget := by rw [hnext.right]
  have harm : t.geometry = h := by rw [htwins.right]
  have hsolves : s.geometry.Solves s.advance.segmentTarget →
      t.geometry.Solves t.advance.segmentTarget := by
    rw [harm, hpoint, htwins.left]
    exact hlinks.solves_iff.mp
  rcases pull_cases stop s with
    ⟨hfin, hpull⟩ | ⟨hfin, e, hj, hpull⟩ | ⟨hfin, q, hj, hlast, hpull⟩
      | ⟨hfin, q, hj, hmore, rfl, hpull⟩
  · rw [hpull, pull_of_isFinished (htwins.isFinished_eq.trans hfin)]
    exact ⟨.finished, htwins⟩
  · have hj' : t.geometry.joints t.advance.segmentTarget = .error e := by
      rw [harm, hpoint]
      rw [htwins.left] at hj
      exact hlinks.joints_error hj
    rw [hpull, pull_of_error (htwins.isFinished_eq.trans hfin) hj']
    exact ⟨.unreachable e, hnext.finish⟩
  · obtain ⟨r, hj'⟩ := hsolves ⟨q, hj⟩
    rw [← hnext.isFinished_eq] at hlast
    rw [hpull, pull_of_last (htwins.isFinished_eq.trans hfin) hj' hlast]
    exact ⟨.finished, hnext.finish⟩
  · obtain ⟨r, hj'⟩ := hsolves ⟨q, hj⟩
    rw [← hnext.isFinished_eq] at hmore
    rw [hpull, pull_of_waypoint (htwins.isFinished_eq.trans hfin) hj' hmore]
    obtain ⟨hq1, hcarried⟩ := Geometry.q1_of_joints hj
    obtain ⟨hr1, hcarried'⟩ := Geometry.q1_of_joints hj'
    refine ⟨.waypoint ?_ fun helbow => ?_, hnext⟩
    · rw [hcarried, hcarried', hpoint]
    · rw [hq1, hr1, hpoint, harm, htwins.left, hlinks.direction_eq helbow]

/-- Lines that are the same but for their arms stay so, whatever requests to stop come in. -/
theorem Twins.after (hlinks : g.SameLinks h) (htwins : Twins g h s t) (stop : Nat → Bool) :
    ∀ i, Twins g h (s.after stop i) (t.after stop i)
  | 0 => htwins
  | i + 1 => (Twins.pull hlinks (Twins.after hlinks htwins stop i) (stop i)).2

end Session

/-- Lines that start at one point and go to one target are the same but for their arms. -/
theorem Segmenter.start_twins {s t : Segmenter α} {q r : Joints α k}
    (hlength : s.maxLength = t.maxLength)
    (hstart : s.geometry.position q = t.geometry.position r) (target : Position α k)
    (rapid : Bool) :
    Session.Twins s.geometry t.geometry (s.start target q rapid) (t.start target r rapid) := by
  refine ⟨rfl, ?_⟩
  unfold start pieces
  rw [hlength, hstart]

/--
**The branch decides how the arm gets to a point, and nothing else.**

Two arms have the same links, and lines are started with the same piece length from joints that
put their tips at the same position. However the lines are stopped, at every pull they are cut
up alike, have come to the same point and have as much left; they hand out waypoints together,
fail together with the same failure, and are over together. Nothing is asked of the arithmetic.
-/
theorem line_of_another_branch {s t : Segmenter α} {q r : Joints α k}
    (hlinks : s.geometry.SameLinks t.geometry) (hlength : s.maxLength = t.maxLength)
    (hstart : s.geometry.position q = t.geometry.position r) (target : Position α k)
    (rapid : Bool) (stop : Nat → Bool) :
    let line := s.start target q rapid
    let other := t.start target r rapid
    ∀ i,
      (line.after stop i).iterations = (other.after stop i).iterations
        ∧ (line.after stop i).segmenting = (other.after stop i).segmenting
        ∧ (line.after stop i).upperBound = (other.after stop i).upperBound
        ∧ (line.after stop i).segmentTarget = (other.after stop i).segmentTarget
        ∧ Pull.Agree (s.geometry.elbow = t.geometry.elbow) (line.taken stop i)
          (other.taken stop i) := by
  intro line other i
  have htwins : Session.Twins s.geometry t.geometry (line.after stop i) (other.after stop i) :=
    (Segmenter.start_twins hlength hstart target rapid).after hlinks stop i
  refine ⟨?_, ?_, ?_, ?_, (htwins.pull hlinks (stop i)).1⟩
  · exact (congrArg Session.iterations htwins.right).symm
  · exact (congrArg Session.segmenting htwins.right).symm
  · exact (congrArg Session.upperBound htwins.right).symm
  · exact (congrArg Session.segmentTarget htwins.right).symm

/-- The sample arm and one that bends the other way and measures from the lower link, with their
tips at one point. -/
theorem line_of_the_sample_arm_bent_down :
    let s : Segmenter Float := .forArm Binary64.sampleArm 0
    let t : Segmenter Float :=
      .forArm { Binary64.sampleArm with elbow := .down, convention := .relative } 1
    let q : Joints Float 1 := ⟨Binary64.ofInt 30, Binary64.ofInt 75, #v[Binary64.ofInt 7]⟩
    let r : Joints Float 1 := ⟨Binary64.ofInt 30, Binary64.ofInt 45, #v[Binary64.ofInt 7]⟩
    let target : Position Float 1 := ⟨Binary64.ofInt 300, Binary64.ofInt 0, #v[Binary64.ofInt 9]⟩
    s.geometry.SameLinks t.geometry ∧ s.maxLength = t.maxLength
      ∧ s.geometry.position q = t.geometry.position r
      ∧ ∀ (stop : Nat → Bool) (i : Nat),
        Pull.Agree (Elbow.up = Elbow.down) ((s.start target q false).taken stop i)
          ((t.start target r false).taken stop i) := by
  intro s t q r target
  have hlinks : s.geometry.SameLinks t.geometry := ⟨rfl, rfl⟩
  have hworld : t.geometry.worldAngle ⟨r.q1, r.q2⟩ = s.geometry.worldAngle ⟨q.q1, q.q2⟩ := by
    show Binary64.ofInt 30 + Binary64.ofInt 45 = Binary64.ofInt 75
    decide +kernel
  have hstart : s.geometry.position q = t.geometry.position r := by
    unfold Geometry.position Geometry.forward
    rw [hworld]
    rfl
  refine ⟨hlinks, rfl, hstart, fun stop i => ?_⟩
  exact (line_of_another_branch hlinks rfl hstart target false stop i).2.2.2.2

end ScaraArm
