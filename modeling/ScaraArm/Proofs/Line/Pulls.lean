import ScaraArm.Line.Session

/-!
# Pulling a line

What one pull can do is said once, here, and everything that is known of lines is derived
from it. A pull of a line that is over changes nothing. Any other pull advances to the next
waypoint, and then one of three things happens: the waypoint is out of reach, which is
reported and ends the line; the pull was the last one or a request to stop is pending,
which ends the line without a word; or the joints of the waypoint are handed out.

Pulls are counted from zero: `s.taken stop i` is what the pull after the first `i` hands
out, where `stop j` tells whether a request to stop is pending at pull `j`.
-/

namespace ScaraArm

variable {α : Type} [Scalar α] {k : Nat}

namespace Geometry

def Solves (g : Geometry α) (p : Position α k) : Prop := ∃ q, g.joints p = .ok q

/-- The positions the arm can be brought to are those in its disc. -/
theorem solves_iff {g : Geometry α} {p : Position α k} :
    g.Solves p ↔ g.reaches ⟨p.x, p.y⟩ = true := by
  unfold Solves joints inverse
  cases h : g.reaches ⟨p.x, p.y⟩ with
  | true => simp [Except.map]
  | false => simp [Except.map]

/-- A failure carries the point that could not be reached, and how far the arm reaches. -/
theorem eq_of_joints_error {g : Geometry α} {p : Position α k} {e : Unreachable α}
    (h : g.joints p = .error e) : e = ⟨p.x, p.y, g.reach⟩ := by
  unfold joints inverse at h
  split at h
  · exact absurd h (by simp [Except.map])
  · exact (Except.error.inj h).symm

theorem not_solves_iff {g : Geometry α} {p : Position α k} :
    ¬ g.Solves p ↔ ∃ e, g.joints p = .error e := by
  unfold Solves
  cases h : g.joints p with
  | ok q => simp
  | error e => simp

end Geometry

namespace Session

variable {s : Session α k} {stop : Bool}

/-! ## One pull -/

theorem isFinished_iff : s.isFinished = true ↔ s.remaining = 0 := beq_iff_eq

theorem not_isFinished_iff : s.isFinished = false ↔ s.remaining ≠ 0 := beq_eq_false_iff_ne

/-- A line that is over stays as it is. -/
theorem pull_of_isFinished (h : s.isFinished = true) : s.pull stop = (.finished, s) := by
  unfold pull
  rw [if_pos h]

theorem pull_of_error {e : Unreachable α} (h : s.isFinished = false)
    (he : s.geometry.joints s.advance.segmentTarget = .error e) :
    s.pull stop = (.unreachable e, s.advance.finish) := by
  have he : s.advance.geometry.joints s.advance.segmentTarget = .error e := he
  unfold pull
  rw [if_neg (by simp [h])]
  simp only [he]

/-- The last pull, and a pull that a request to stop is pending at, hand out nothing. -/
theorem pull_of_last {q : Joints α k} (h : s.isFinished = false)
    (hq : s.geometry.joints s.advance.segmentTarget = .ok q)
    (hlast : s.advance.isFinished = true ∨ stop = true) :
    s.pull stop = (.finished, s.advance.finish) := by
  have hq : s.advance.geometry.joints s.advance.segmentTarget = .ok q := hq
  unfold pull
  rw [if_neg (by simp [h])]
  simp only [hq]
  exact if_pos (Bool.or_eq_true_iff.mpr hlast)

theorem pull_of_waypoint {q : Joints α k} (h : s.isFinished = false)
    (hq : s.geometry.joints s.advance.segmentTarget = .ok q)
    (hmore : s.advance.isFinished = false) :
    s.pull false = (.waypoint q, s.advance) := by
  have hq : s.advance.geometry.joints s.advance.segmentTarget = .ok q := hq
  unfold pull
  rw [if_neg (by simp [h])]
  simp only [hq]
  exact if_neg (by simp [hmore])

/-- **A pull that a request to stop is pending at hands out no waypoint**, and the line is
over behind it. -/
theorem pull_of_stop (h : s.isFinished = false) :
    s.pull true
      = (match s.geometry.joints s.advance.segmentTarget with
          | .ok _ => .finished
          | .error e => .unreachable e, s.advance.finish) := by
  cases hj : s.geometry.joints s.advance.segmentTarget with
  | ok q => exact pull_of_last h hj (Or.inr rfl)
  | error e => exact pull_of_error h hj

/-- **What one pull can do.** -/
theorem pull_cases (stop : Bool) (s : Session α k) :
    (s.isFinished = true ∧ s.pull stop = (.finished, s))
      ∨ (s.isFinished = false ∧ ∃ e, s.geometry.joints s.advance.segmentTarget = .error e
        ∧ s.pull stop = (.unreachable e, s.advance.finish))
      ∨ (s.isFinished = false ∧ ∃ q, s.geometry.joints s.advance.segmentTarget = .ok q
        ∧ (s.advance.isFinished = true ∨ stop = true)
        ∧ s.pull stop = (.finished, s.advance.finish))
      ∨ (s.isFinished = false ∧ ∃ q, s.geometry.joints s.advance.segmentTarget = .ok q
        ∧ s.advance.isFinished = false ∧ stop = false
        ∧ s.pull stop = (.waypoint q, s.advance)) := by
  cases hfin : s.isFinished with
  | true => exact Or.inl ⟨rfl, pull_of_isFinished hfin⟩
  | false =>
    cases hj : s.geometry.joints s.advance.segmentTarget with
    | error e => exact Or.inr (Or.inl ⟨rfl, e, rfl, pull_of_error hfin hj⟩)
    | ok q =>
      by_cases hlast : s.advance.isFinished = true ∨ stop = true
      · exact Or.inr (Or.inr (Or.inl ⟨rfl, q, rfl, hlast, pull_of_last hfin hj hlast⟩))
      · obtain ⟨hmore, hgo⟩ := not_or.mp hlast
        obtain rfl : stop = false := Bool.eq_false_iff.mpr hgo
        have hmore : s.advance.isFinished = false := Bool.eq_false_iff.mpr hmore
        exact Or.inr (Or.inr (Or.inr ⟨rfl, q, rfl, hmore, rfl, pull_of_waypoint hfin hj hmore⟩))

/-! ## Many pulls -/

/-- No request to stop is ever pending. -/
def never : Nat → Bool := fun _ => false

/-- The line behind the first `i` pulls. -/
def after (stop : Nat → Bool) (s : Session α k) : Nat → Session α k
  | 0 => s
  | i + 1 => ((after stop s i).pull (stop i)).2

/-- What the pull after the first `i` hands out. -/
def taken (stop : Nat → Bool) (s : Session α k) (i : Nat) : Pull α k :=
  ((s.after stop i).pull (stop i)).1

theorem after_succ (stop : Nat → Bool) (s : Session α k) (i : Nat) :
    s.after stop (i + 1) = ((s.after stop i).pull (stop i)).2 := rfl

/-- Once a line is over, pulling changes nothing any more. -/
theorem after_of_isFinished {stop : Nat → Bool} {i j : Nat}
    (h : (s.after stop i).isFinished = true) (hij : i ≤ j) :
    s.after stop j = s.after stop i := by
  induction hij with
  | refl => rfl
  | step _ ih => rw [after_succ, ih, pull_of_isFinished h]

theorem taken_of_isFinished {stop : Nat → Bool} {i j : Nat}
    (h : (s.after stop i).isFinished = true) (hij : i ≤ j) :
    s.taken stop j = .finished := by
  unfold taken
  rw [after_of_isFinished h hij, pull_of_isFinished h]

end Session

end ScaraArm
