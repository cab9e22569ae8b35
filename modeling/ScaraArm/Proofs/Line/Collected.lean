import ScaraArm.Proofs.Line.RunLaw

/-!
# A run, collected

`Session.run` pulls a line to its end and collects what it hands out: the waypoints in a list,
and the failure that ended it, if one did. What that list is can be said by pulls alone
(`Session.Collected`): item `i` is what pull `i` handed out, and the pull behind the last item
handed out the failure or told that the line is over. The bound on the pulls never cuts a run
short, because a pull that hands out a waypoint leaves one pull less.

Along the points of a line this says which points the list stands for. A run that ends without
a failure has collected all of them, and one that ends with a failure those before the first
point out of reach.
-/

namespace ScaraArm

variable {α : Type} [Scalar α] {k : Nat}

namespace Session

variable {s : Session α k}

/-- The pulls behind the first one are those of what it leaves. -/
theorem after_never_succ (s : Session α k) (i : Nat) :
    s.after never (i + 1) = (s.pull false).2.after never i := by
  induction i with
  | zero => rfl
  | succ i ih => rw [after_succ, ih, after_succ]; rfl

theorem taken_never_succ (s : Session α k) (i : Nat) :
    s.taken never (i + 1) = (s.pull false).2.taken never i := by
  unfold taken
  rw [after_never_succ]
  rfl

/-- The joints and the failure are what pulling the line without a stop hands out. -/
structure Collected (s : Session α k) (waypoints : List (Joints α k))
    (failure : Option (Unreachable α)) : Prop where
  /-- Each item is what its pull handed out. -/
  handsOut : ∀ i (h : i < waypoints.length), s.taken never i = .waypoint waypoints[i]
  /-- The pull behind the last item reports the failure, or tells that the line is over. -/
  ends : s.taken never waypoints.length
    = match failure with
      | some e => .unreachable e
      | none => .finished

theorem Collected.cons {q : Joints α k} {next : Session α k} {waypoints : List (Joints α k)}
    {failure : Option (Unreachable α)} (hpull : s.pull false = (.waypoint q, next))
    (h : next.Collected waypoints failure) : s.Collected (q :: waypoints) failure := by
  have hnext : (s.pull false).2 = next := congrArg Prod.snd hpull
  constructor
  · intro i hi
    cases i with
    | zero => exact congrArg Prod.fst hpull
    | succ i =>
      rw [taken_never_succ, hnext]
      exact h.handsOut i (Nat.lt_of_succ_lt_succ hi)
  · rw [List.length_cons, taken_never_succ, hnext]
    exact h.ends

variable {waypoints : List (Joints α k)} {failure : Option (Unreachable α)}

variable {w : Nat → Position α k}

/-- A run hands out a waypoint only for a point, and then its joints. -/
theorem RunsThrough.joints_of_waypoint (h : s.RunsThrough w) {i : Nat} {q : Joints α k}
    (htaken : s.taken never i = .waypoint q) :
    i < s.iterations ∧ s.geometry.joints (w (i + 1)) = .ok q := by
  have hi : i < s.iterations := by
    by_contra hi
    rw [h.silent i (Or.inl (Nat.le_of_not_lt hi))] at htaken
    cases htaken
  have hreach : ∀ j < i, s.geometry.Solves (w (j + 1)) := by
    intro j hj
    by_contra hfail
    rw [h.silent i (Or.inr ⟨j, hj, by omega, hfail⟩)] at htaken
    cases htaken
  refine ⟨hi, ?_⟩
  have hhands := h.handsOut i hi hreach
  rw [htaken] at hhands
  cases hj : s.geometry.joints (w (i + 1)) with
  | ok q' =>
    rw [hj] at hhands
    cases hhands
    rfl
  | error e =>
    rw [hj] at hhands
    cases hhands

/-- The item at `i` is the joints of point `i + 1`. -/
theorem Collected.joints_eq (h : s.Collected waypoints failure) (hrun : s.RunsThrough w)
    {i : Nat} (hi : i < waypoints.length) :
    i < s.iterations ∧ s.geometry.joints (w (i + 1)) = .ok waypoints[i] :=
  hrun.joints_of_waypoint (h.handsOut i hi)

/-- **A run without a failure has collected all points.** -/
theorem Collected.length_eq (h : s.Collected waypoints none) (hrun : s.RunsThrough w) :
    waypoints.length = s.iterations := by
  have hle : waypoints.length ≤ s.iterations := by
    by_contra hlt
    exact Nat.lt_irrefl _ (h.joints_eq hrun (Nat.lt_of_not_le hlt)).1
  by_contra hne
  -- the next pull would have handed out a point or reported it
  have hends : s.taken never waypoints.length = .finished := h.ends
  have hhands := hrun.handsOut waypoints.length (by omega)
    fun j hj => ⟨_, (h.joints_eq hrun hj).2⟩
  rw [hends] at hhands
  split at hhands <;> cases hhands

end Session

end ScaraArm
