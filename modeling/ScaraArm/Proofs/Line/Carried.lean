import ScaraArm.Proofs.Line.Branches
import ScaraArm.Proofs.Line.Standing

/-!
# Carried axes

The arm does not know what it carries. Said in both directions, nothing flows between the two
driven axes and a carried one.

What the arm does is seen when the carried axes are dropped: a machine with none is left, and
`inPlane` takes positions, joints, lines and what is handed out there. Everything a line is made
of commutes with that, one lemma each: sums, the tip, the solution, the start of a line, one
pull. So by induction over pulls a run seen in the plane is the run of the line seen in the
plane. Two lines that look the same there look the same at every pull, whatever they carry.

What a carried axis does is one scalar going from one value to another (`ridden`): the steps of
the line add to it, and the last waypoint puts it on its target. No other axis is mentioned.
-/

namespace ScaraArm

variable {α : Type} {k l : Nat}

/-- What is left when nothing is carried. -/
def PerAxis.inPlane (v : PerAxis α k) : PerAxis α 0 := ⟨v.first, v.second, #v[]⟩

namespace Position

/-- The position without its carried axes. -/
def inPlane (p : Position α k) : Position α 0 := ⟨p.toPerAxis.inPlane⟩

theorem inPlane_eq_iff {p : Position α k} {q : Position α l} :
    p.inPlane = q.inPlane ↔ p.x = q.x ∧ p.y = q.y := by
  constructor
  · intro h
    exact ⟨congrArg x h, congrArg y h⟩
  · rintro ⟨hx, hy⟩
    exact ext_axes hx hy fun i hi => absurd hi (Nat.not_lt_zero i)

theorem inPlane_add [Add α] (p q : Position α k) : (p + q).inPlane = p.inPlane + q.inPlane :=
  ext_axes rfl rfl fun i hi => absurd hi (Nat.not_lt_zero i)

theorem inPlane_sub [Sub α] (p q : Position α k) : (p - q).inPlane = p.inPlane - q.inPlane :=
  ext_axes rfl rfl fun i hi => absurd hi (Nat.not_lt_zero i)

theorem inPlane_div [Div α] (p : Position α k) (d : α) : (p / d).inPlane = p.inPlane / d :=
  ext_axes rfl rfl fun i hi => absurd hi (Nat.not_lt_zero i)

end Position

namespace Joints

/-- The joints without the carried axes. -/
def inPlane (q : Joints α k) : Joints α 0 := ⟨q.toPerAxis.inPlane⟩

theorem inPlane_eq {q : Joints α k} {r : Joints α l} (h1 : q.q1 = r.q1) (h2 : q.q2 = r.q2) :
    q.inPlane = r.inPlane := by
  have h1 : q.first = r.first := h1
  have h2 : q.second = r.second := h2
  unfold inPlane PerAxis.inPlane
  rw [h1, h2]

end Joints

/-- What is handed out, without the carried axes. -/
def Pull.inPlane : Pull α k → Pull α 0
  | .waypoint q => .waypoint q.inPlane
  | .unreachable e => .unreachable e
  | .finished => .finished

variable [Scalar α]

namespace Geometry

variable (g : Geometry α)

theorem position_inPlane (q : Joints α k) : (g.position q).inPlane = g.position q.inPlane := rfl

theorem joints_inPlane (p : Position α k) :
    g.joints p.inPlane = (g.joints p).map Joints.inPlane := by
  unfold joints
  cases h : g.inverse ⟨p.x, p.y⟩ with
  | ok q =>
    show (g.inverse ⟨p.x, p.y⟩).map _ = _
    rw [h]
    rfl
  | error e =>
    show (g.inverse ⟨p.x, p.y⟩).map _ = _
    rw [h]
    rfl

end Geometry

/-! ## A line seen in the plane -/

namespace Session

/-- The line without what it carries. -/
def inPlane (s : Session α k) : Session α 0 where
  geometry := s.geometry
  finalTarget := s.finalTarget.inPlane
  delta := s.delta.inPlane
  segmentTarget := s.segmentTarget.inPlane
  iterations := s.iterations
  remaining := s.remaining
  segmenting := s.segmenting

theorem advance_inPlane (s : Session α k) : s.inPlane.advance = s.advance.inPlane := by
  unfold advance inPlane
  simp only [← Position.inPlane_add, apply_ite Position.inPlane]

theorem solution_inPlane (s : Session α k) :
    s.inPlane.geometry.joints s.inPlane.advance.segmentTarget
      = (s.geometry.joints s.advance.segmentTarget).map Joints.inPlane := by
  rw [advance_inPlane]
  exact s.geometry.joints_inPlane s.advance.segmentTarget

/-- **A pull seen in the plane is the pull of the line seen in the plane.** -/
theorem pull_inPlane (stop : Bool) (s : Session α k) :
    s.inPlane.pull stop = ((s.pull stop).1.inPlane, (s.pull stop).2.inPlane) := by
  have hsolution := s.solution_inPlane
  have hover : s.inPlane.isFinished = s.isFinished := rfl
  have hover' : s.inPlane.advance.isFinished = s.advance.isFinished := by
    rw [advance_inPlane]
    rfl
  rcases pull_cases stop s with
    ⟨hfin, hpull⟩ | ⟨hfin, e, hj, hpull⟩ | ⟨hfin, q, hj, hlast, hpull⟩
      | ⟨hfin, q, hj, hmore, rfl, hpull⟩
  · rw [hpull, pull_of_isFinished (hover.trans hfin)]
    rfl
  · rw [hj] at hsolution
    rw [hpull, pull_of_error (hover.trans hfin) hsolution, advance_inPlane]
    rfl
  · rw [hj] at hsolution
    rw [← hover'] at hlast
    rw [hpull, pull_of_last (hover.trans hfin) hsolution hlast, advance_inPlane]
    rfl
  · rw [hj] at hsolution
    rw [hpull, pull_of_waypoint (hover.trans hfin) hsolution (hover'.trans hmore), advance_inPlane]
    rfl

theorem after_inPlane (stop : Nat → Bool) (s : Session α k) (i : Nat) :
    s.inPlane.after stop i = (s.after stop i).inPlane := by
  induction i with
  | zero => rfl
  | succ i ih => rw [after_succ, ih, pull_inPlane, after_succ]

theorem taken_inPlane (stop : Nat → Bool) (s : Session α k) (i : Nat) :
    s.inPlane.taken stop i = (s.taken stop i).inPlane := by
  unfold taken
  rw [after_inPlane, pull_inPlane]

end Session

/-- A line seen in the plane is the line started there. -/
theorem Segmenter.start_inPlane (s : Segmenter α) (target : Position α k) (joints : Joints α k)
    (rapid : Bool) :
    (s.start target joints rapid).inPlane = s.start target.inPlane joints.inPlane rapid := by
  unfold start Session.inPlane
  simp only [apply_ite Position.inPlane, Position.inPlane_div, Position.inPlane_sub,
    Geometry.position_inPlane]
  rfl

/-! ## What a carried axis shows -/

/-- The number that is `i` steps away, by adding the step `i` times. -/
def Scalar.walk (start step : α) : Nat → α
  | 0 => start
  | i + 1 => walk start step i + step

/-- What a carried axis shows at waypoint `i` of `n`, on its way from one value to another. -/
def Segmenter.ridden (start target : α) (n i : Nat) : α :=
  if i < n then Scalar.walk start ((target - start) / Scalar.ofInt n) i else target

theorem Position.carried_walk (start step : Position α k) (a : Nat) (ha : a < k) (i : Nat) :
    (start.walk step i).carried[a] = Scalar.walk start.carried[a] step.carried[a] i := by
  induction i with
  | zero => rfl
  | succ i ih =>
    show (start.walk step i + step).carried[a] = _
    rw [carried_add, ih]
    rfl

/-- A carried axis of a reference point knows of no other axis. -/
theorem Segmenter.carried_referencePoint (s : Segmenter α) (target : Position α k)
    (joints : Joints α k) (n i : Nat) (a : Nat) (ha : a < k) :
    (s.referencePoint target joints n i).carried[a]
      = ridden joints.carried[a] target.carried[a] n i := by
  unfold referencePoint ridden
  by_cases hi : i < n
  · simp only [if_pos hi]
    rw [Position.carried_walk, Position.carried_div, Position.carried_sub]
    rfl
  · simp only [if_neg hi]

/--
**Carried axes follow a line and never change it.**

Two lines of one segmenter start at the same driven angles and go to the same point of the plane,
at the same speed; they carry what they like, and are stopped at the same pulls. Then at every
pull they have come to the same point of the plane, have as much left, and hand out waypoints
with the same driven angles, or the same failure, or nothing together.

In turn a carried axis of a waypoint, in the point and in the joints, is the number that its
start, its target, the count of pieces and the pull give, and behind the last waypoint it is its
target. Nothing is asked of the arithmetic.
-/
theorem carried_axes_of_line (s : Segmenter α) (target : Position α k) (joints : Joints α k)
    (target' : Position α l) (joints' : Joints α l) (rapid : Bool) (stop : Nat → Bool)
    (hq1 : joints.q1 = joints'.q1) (hq2 : joints.q2 = joints'.q2)
    (hx : target.x = target'.x) (hy : target.y = target'.y) :
    let line := s.start target joints rapid
    let other := s.start target' joints' rapid
    ∀ i,
      ((line.after stop i).iterations = (other.after stop i).iterations
        ∧ (line.after stop i).segmenting = (other.after stop i).segmenting
        ∧ (line.after stop i).upperBound = (other.after stop i).upperBound
        ∧ (line.after stop i).segmentTarget.x = (other.after stop i).segmentTarget.x
        ∧ (line.after stop i).segmentTarget.y = (other.after stop i).segmentTarget.y
        ∧ (line.taken stop i).inPlane = (other.taken stop i).inPlane)
      ∧ ∀ q, line.taken stop i = .waypoint q → ∀ a (_ : a < k),
          q.carried[a] = Segmenter.ridden joints.carried[a] target.carried[a]
              line.iterations (i + 1)
          ∧ (line.after stop (i + 1)).segmentTarget.carried[a] = q.carried[a]
          ∧ (i + 1 = line.iterations → q.carried[a] = target.carried[a]) := by
  intro line other i
  have hlines : line.inPlane = other.inPlane := by
    rw [Segmenter.start_inPlane, Segmenter.start_inPlane, Joints.inPlane_eq hq1 hq2,
      Position.inPlane_eq_iff.mpr ⟨hx, hy⟩]
  have hafter : (line.after stop i).inPlane = (other.after stop i).inPlane := by
    rw [← Session.after_inPlane, ← Session.after_inPlane, hlines]
  have htaken : (line.taken stop i).inPlane = (other.taken stop i).inPlane := by
    rw [← Session.taken_inPlane, ← Session.taken_inPlane, hlines]
  obtain ⟨hsx, hsy⟩ := Position.inPlane_eq_iff.mp (congrArg Session.segmentTarget hafter)
  refine ⟨⟨congrArg Session.iterations hafter, congrArg Session.segmenting hafter,
    congrArg Session.upperBound hafter, hsx, hsy, htaken⟩, fun q hq a ha => ?_⟩
  obtain ⟨hjoints, hpoint⟩ := Segmenter.waypoint_of_start hq
  have hridden : q.carried[a]
      = Segmenter.ridden joints.carried[a] target.carried[a] line.iterations (i + 1) := by
    simp only [(Geometry.q1_of_joints hjoints).2]
    exact s.carried_referencePoint target joints line.iterations (i + 1) a ha
  refine ⟨hridden, ?_, fun hlast => ?_⟩
  · have hpoint : (line.after stop (i + 1)).segmentTarget = _ := hpoint
    simp only [hpoint, (Geometry.q1_of_joints hjoints).2]
  · rw [hridden]
    exact if_neg (by omega)

open Binary64 in
/-- A line inwards of two pieces that carries an undefined and an infinite axis hands out the
driven angles of a line that carries nothing, and brings its axes where they were to go. -/
theorem carried_axes_of_the_laden_arm :
    letI : Scalar Float := scalar .level
    let s : Segmenter Float := .withMaxLength (.forArm levelArm 0) (ofInt 100)
    let laden : Joints Float 2 := ⟨ofInt 0, ofInt 0, #v[.ofBits 0x7FF8000000000000, ofInt 3]⟩
    let target : Position Float 2 := ⟨ofInt 800, ofInt 0, #v[ofInt 7, .ofBits 0x7FF0000000000000]⟩
    let line := s.start target laden false
    let bare := s.start (⟨ofInt 800, ofInt 0, #v[]⟩ : Position Float 0) (.zero 0) false
    line.iterations = 2
      ∧ (∀ (stop : Nat → Bool) (i : Nat),
          (line.taken stop i).inPlane = (bare.taken stop i).inPlane)
      ∧ ∃ q, line.taken Session.never 1 = .waypoint q
        ∧ ∀ a (_ : a < 2), q.carried[a] = target.carried[a] := by
  let _ : Scalar Float := scalar .level
  intro s laden target line bare
  have hcount : line.iterations = 2 := by decide +kernel
  have hlast : line.taken Session.never 1
      = .waypoint ⟨ofInt 0, ofInt 0, #v[ofInt 7, .ofBits 0x7FF0000000000000]⟩ := by decide +kernel
  have hlaw := fun stop => carried_axes_of_line s target laden
    (⟨ofInt 800, ofInt 0, #v[]⟩ : Position Float 0) (.zero 0) false stop rfl rfl rfl rfl
  refine ⟨hcount, fun stop i => (hlaw stop i).1.2.2.2.2.2, _, hlast, fun a ha => ?_⟩
  exact ((hlaw Session.never 1).2 _ hlast a ha).2.2 hcount.symm

end ScaraArm
