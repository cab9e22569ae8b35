import ScaraArm.Proofs.Line.Standing

/-!
# What a line has still to hand out

A line promises at most so many items, waypoints or failures, and the promise is one less than
the pulls that are left, because the last pull only tells the end. That pull solves for the
target once more, and if it could fail, an item would come that nobody promised. It cannot: a
line with one pull left has solved its target on the pull before (`Session.Settled`), and the
target is what that pull snapped to.

So every pull that hands out something takes at least one off the promise, and what has been
handed out together with what is still promised never exceeds what was promised first. A line
that nothing ends before its time keeps the promise to the last item.
-/

namespace ScaraArm

variable {α : Type} {k : Nat}

/-- Something was handed out: the joints of a waypoint, or a failure. -/
def Pull.isItem : Pull α k → Bool
  | .waypoint _ | .unreachable _ => true
  | .finished => false

variable [Scalar α]

namespace Session

variable {s line : Session α k} {w : Nat → Position α k} {later : Nat → Bool} {i m : Nat}

/-- How many of the first `m` pulls hand out something. -/
def itemCount (later : Nat → Bool) (s : Session α k) (m : Nat) : Nat :=
  Nat.count (fun i => (s.taken later i).isItem = true) m

/-! ## The last pull -/

/-- A line with one pull left has solved its target. -/
def Settled (s : Session α k) : Prop := s.remaining = 1 → s.geometry.Solves s.finalTarget

theorem settled_of_start (hstart : line.remaining = line.iterations + 1)
    (hpos : 1 ≤ line.iterations) : line.Settled := fun hone => by omega

/-- With at most one pull to follow, a line steps onto its target. -/
theorem advance_of_le (h : s.remaining ≤ 2) : s.advance.segmentTarget = s.finalTarget := by
  have hleft : ¬ 1 < s.remaining - 1 := by omega
  unfold advance
  simp only [decide_eq_false hleft, Bool.and_false]
  rfl

/-- **A pull keeps a line settled**: the pull that leaves one pull has just solved the target. -/
theorem Settled.pull (h : s.Settled) (stop : Bool) : (s.pull stop).2.Settled := by
  rcases pull_cases stop s with
    ⟨-, hpull⟩ | ⟨-, e, -, hpull⟩ | ⟨-, q, -, -, hpull⟩ | ⟨hfin, q, hj, hmore, -, hpull⟩
  · rw [hpull]
    exact h
  · rw [hpull]
    exact fun hone => absurd hone Nat.zero_ne_one
  · rw [hpull]
    exact fun hone => absurd hone Nat.zero_ne_one
  · rw [hpull]
    intro hone
    have hone : s.remaining - 1 = 1 := hone
    rw [advance_of_le (by omega)] at hj
    exact ⟨q, hj⟩

theorem Settled.after (h : s.Settled) (stop : Nat → Bool) (i : Nat) :
    (s.after stop i).Settled := by
  induction i with
  | zero => exact h
  | succ i ih => exact ih.pull (stop i)

/-- **The last pull hands out nothing**, not even a failure. -/
theorem Settled.pull_of_one (h : s.Settled) (hone : s.remaining = 1) (stop : Bool) :
    (s.pull stop).1 = .finished := by
  rcases pull_cases stop s with
    ⟨-, hpull⟩ | ⟨-, e, he, hpull⟩ | ⟨-, q, -, -, hpull⟩ | ⟨-, q, -, hmore, -, hpull⟩
  · rw [hpull]
  · -- it solves for the target, which has been solved before
    rw [advance_of_le (by omega)] at he
    exact absurd (h hone) (Geometry.not_solves_iff.mpr ⟨e, he⟩)
  · rw [hpull]
  · have hmore : s.remaining - 1 ≠ 0 := not_isFinished_iff.mp hmore
    omega

/-! ## The promise -/

/-- What a pull hands out was promised. -/
theorem Settled.upperBound_pull (h : s.Settled) (stop : Bool) :
    (s.pull stop).2.upperBound + (if (s.pull stop).1.isItem = true then 1 else 0)
      ≤ s.upperBound := by
  have hsilent : s.remaining = 1 → (s.pull stop).1 = .finished := fun hone =>
    h.pull_of_one hone stop
  rcases pull_cases stop s with
    ⟨-, hpull⟩ | ⟨hfin, e, -, hpull⟩ | ⟨-, q, -, -, hpull⟩ | ⟨hfin, q, -, hmore, -, hpull⟩
  · rw [hpull]
    exact Nat.le_refl _
  · -- a failure is an item too, so it did not come from the last pull
    have hleft : s.remaining ≠ 0 := not_isFinished_iff.mp hfin
    have htwo : s.remaining ≠ 1 := by
      intro hone
      have hover := hsilent hone
      rw [hpull] at hover
      cases hover
    rw [hpull]
    show 0 - 1 + 1 ≤ s.remaining - 1
    omega
  · rw [hpull]
    exact Nat.zero_le _
  · have hmore : s.remaining - 1 ≠ 0 := not_isFinished_iff.mp hmore
    rw [hpull]
    show s.remaining - 1 - 1 + 1 ≤ s.remaining - 1
    omega

/-- **What was handed out and what is still promised were promised together.** -/
theorem Settled.itemCount_add_upperBound_le (h : s.Settled) (later : Nat → Bool) (m : Nat) :
    s.itemCount later m + (s.after later m).upperBound ≤ s.upperBound := by
  induction m with
  | zero => exact (Nat.zero_add _).le
  | succ m ih =>
    have hpull := (h.after later m).upperBound_pull (later m)
    unfold itemCount at ih ⊢
    rw [Nat.count_succ, after_succ]
    have hitem : (s.taken later m).isItem = ((s.after later m).pull (later m)).1.isItem := rfl
    rw [hitem]
    omega

/-- A line that is over promises nothing. -/
theorem upperBound_of_isFinished (h : s.isFinished = true) : s.upperBound = 0 := by
  unfold upperBound
  rw [isFinished_iff.mp h]

/-! ## Keeping the promise -/

theorem upperBound_atPoint (w : Nat → Position α k) (i : Nat) :
    (line.atPoint w i).upperBound = line.iterations - i := by
  show line.iterations + 1 - i - 1 = line.iterations - i
  omega

/-- From any of its points a line goes on through the next ones, as long as it is not stopped
and they are within reach. -/
theorem after_atPoint (hw : line.Visits w) (him : i + m ≤ line.iterations)
    (hgo : ∀ j < m, later j = false)
    (hreach : ∀ j, i < j → j ≤ i + m → line.geometry.Solves (w j)) :
    (line.atPoint w i).after later m = line.atPoint w (i + m) := by
  induction m with
  | zero => rfl
  | succ m ih =>
    obtain ⟨q, hq⟩ := hreach (i + m + 1) (by omega) (Nat.le_refl _)
    have hat := ih (by omega) (fun j hj => hgo j (by omega)) fun j hj hjm => hreach j hj (by omega)
    rw [after_succ, hat, hgo m (Nat.lt_succ_self m)]
    exact congrArg Prod.snd (pull_atPoint_of_ok hw (by omega) hq)

theorem isItem_taken_atPoint (hw : line.Visits w) (him : i + m < line.iterations)
    (hgo : ∀ j ≤ m, later j = false)
    (hreach : ∀ j, i < j → j ≤ i + m + 1 → line.geometry.Solves (w j)) :
    ((line.atPoint w i).taken later m).isItem = true := by
  obtain ⟨q, hq⟩ := hreach (i + m + 1) (by omega) (Nat.le_refl _)
  unfold taken
  rw [after_atPoint hw him.le (fun j hj => hgo j hj.le) fun j hj hjm => hreach j hj (by omega),
    hgo m (Nat.le_refl m), pull_atPoint_of_ok hw him hq]
  rfl

/-- **A line that nothing ends early hands out all that it promised**, one item a pull. -/
theorem itemCount_atPoint (hw : line.Visits w) (hsettled : (line.atPoint w i).Settled)
    (hgo : ∀ j < line.iterations - i, later j = false)
    (hreach : ∀ j, i < j → j ≤ line.iterations → line.geometry.Solves (w j)) (m : Nat) :
    (line.atPoint w i).itemCount later m = min m (line.iterations - i) := by
  have hall : ∀ n ≤ line.iterations - i, (line.atPoint w i).itemCount later n = n := by
    intro n hn
    refine Nat.count_iff_forall.mpr fun j hj => ?_
    exact isItem_taken_atPoint hw (by omega) (fun l hl => hgo l (by omega))
      fun l hl hlj => hreach l hl (by omega)
  rcases Nat.le_total m (line.iterations - i) with hm | hm
  · rw [hall m hm, Nat.min_eq_left hm]
  · rw [Nat.min_eq_right hm]
    refine Nat.le_antisymm ?_ ?_
    · have hsum := hsettled.itemCount_add_upperBound_le later m
      rw [upperBound_atPoint] at hsum
      omega
    · calc line.iterations - i = (line.atPoint w i).itemCount later (line.iterations - i) :=
            (hall _ (Nat.le_refl _)).symm
        _ ≤ (line.atPoint w i).itemCount later m := Nat.count_monotone _ hm

end Session

/--
**A line promises what it can hand out, and no more.**

Let a line have been pulled `i` times, with requests to stop at whatever pulls. However it is
pulled and stopped from there, it hands out no more items than it promises; and it hands out
just as many, one a pull, if no request comes before the last of them and all the points it has
not come to are within reach. The promise is the number of those points until the line is over,
and nothing from then on. In particular the last pull hands out nothing, not even a failure, and
a line that has once handed out no waypoint promises nothing any more.
-/
theorem items_of_line (circular : Binary64.Circular) {k : Nat} :
    letI : Scalar Float := Binary64.scalar circular
    ∀ {s : Segmenter Float}, s.Built → ∀ (target : Position Float k) (joints : Joints Float k)
      (rapid : Bool) (stop : Nat → Bool) (i : Nat),
      let line := s.start target joints rapid
      let w := s.referencePoint target joints line.iterations
      let rest := line.after stop i
      (∀ later m, rest.itemCount later m ≤ rest.upperBound)
        ∧ (∀ later, (∀ j < rest.upperBound, later j = false) →
            (∀ j, i < j → j ≤ line.iterations → s.geometry.Solves (w j)) →
            ∀ m, rest.itemCount later m = min m rest.upperBound)
        ∧ rest.upperBound = (if rest.isFinished then 0 else line.iterations - i)
        ∧ (rest.remaining = 1 → ∀ now, (rest.pull now).1 = .finished)
        ∧ ((∃ j < i, ∀ q, line.taken stop j ≠ .waypoint q) → rest.upperBound = 0) := by
  let _ : Scalar Float := Binary64.scalar circular
  intro s hs target joints rapid stop i line w rest
  have hpos : 1 ≤ line.iterations := Binary64.one_le_iterations circular hs target joints rapid
  have hw : line.Visits w := s.start_visits target joints rapid
  have hsettled : rest.Settled := (Session.settled_of_start rfl hpos).after stop i
  have hbound : ∀ later m, rest.itemCount later m ≤ rest.upperBound := fun later m =>
    (Nat.le_add_right _ _).trans (hsettled.itemCount_add_upperBound_le later m)
  have hover : (∃ j < i, ∀ q, line.taken stop j ≠ .waypoint q) → rest.upperBound = 0 := by
    rintro ⟨j, hji, hnone⟩
    have hfin : (line.after stop (j + 1)).isFinished = true := by
      rw [← Bool.not_eq_false]
      exact fun hmore => (Session.not_isFinished_after_iff.mp hmore).elim hnone
    refine Session.upperBound_of_isFinished ?_
    show (line.after stop i).isFinished = true
    rw [Session.after_of_isFinished hfin hji]
    exact hfin
  refine ⟨hbound, fun later hgo hreach m => ?_, ?_, hsettled.pull_of_one, hover⟩
  · cases hfin : rest.isFinished with
    | true =>
      have hzero := Session.upperBound_of_isFinished hfin
      have hle := hbound later m
      rw [hzero] at hle ⊢
      rw [Nat.min_zero]
      exact Nat.le_zero.mp hle
    | false =>
      obtain ⟨-, hat⟩ := Session.after_of_not_isFinished rfl hw hfin
      have hat : rest = line.atPoint w i := hat
      rw [hat] at hgo hsettled ⊢
      rw [Session.upperBound_atPoint] at hgo ⊢
      exact Session.itemCount_atPoint hw hsettled hgo hreach m
  · cases hfin : rest.isFinished with
    | true => exact Session.upperBound_of_isFinished hfin
    | false =>
      obtain ⟨-, hat⟩ := Session.after_of_not_isFinished rfl hw hfin
      have hat : rest = line.atPoint w i := hat
      rw [hat]
      exact Session.upperBound_atPoint w i

open Binary64 in
/-- A line of two pieces, pulled once, promises one item. It hands out that one and no other,
in however many pulls. -/
theorem items_of_a_line_in_two :
    letI : Scalar Float := scalar .level
    let s : Segmenter Float := .withMaxLength (.forArm levelArm 0) (ofInt 100)
    let target : Position Float 1 := ⟨ofInt 800, ofInt 0, #v[ofInt 3]⟩
    let line := s.start target (.zero 1) false
    let w := s.referencePoint target (.zero 1) line.iterations
    let rest := line.after Session.never 1
    s.Built ∧ rest.upperBound = 1
      ∧ (∀ j, 1 < j → j ≤ line.iterations → s.geometry.Solves (w j))
      ∧ (∀ m, rest.itemCount Session.never m = min m 1)
      ∧ (rest.after Session.never 1).remaining = 1
      ∧ ∀ now, ((rest.after Session.never 1).pull now).1 = .finished := by
  let _ : Scalar Float := scalar .level
  intro s target line w rest
  have hs : s.Built := .withMaxLength _ (.forArm _ _)
  have hcount : line.iterations = 2 := by decide +kernel
  have hbound : rest.upperBound = 1 := by decide +kernel
  have hreach : ∀ j, 1 < j → j ≤ line.iterations → s.geometry.Solves (w j) := by
    intro j hj hle
    obtain rfl : j = 2 := by omega
    rw [Geometry.solves_iff]
    decide +kernel
  have hone : (line.after Session.never 2).remaining = 1 := by decide +kernel
  obtain ⟨-, hkept, -⟩ := items_of_line .level hs target (.zero 1) false Session.never 1
  obtain ⟨-, -, -, hlast, -⟩ := items_of_line .level hs target (.zero 1) false Session.never 2
  refine ⟨hs, hbound, hreach, fun m => ?_, hone, hlast hone⟩
  rw [hkept Session.never (fun _ _ => rfl) hreach m, hbound]

end ScaraArm
