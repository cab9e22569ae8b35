import ScaraArm.Line.Planner
import ScaraArm.Proofs.Line.RunLaw

/-!
# Stopping lines, in any order of events

Lines are started, stopped and pulled in any order, by any number of segmenters, and all of
them share the planner. Two things are proved of every such history.

A button is pressed exactly when the latest start or stop of its family was a stop. So a
pull notices a request that no line of the family was started after, and no other.

A line is its own. Only a pull of its slot changes what is left of it, and until a pull
notices a request it is, field for field, the line that was pulled as often and never
stopped (`Alone`). The pull that notices one ends it, and from then on nothing that happens
brings it back: a line started later releases the button, but the counter is spent.
-/

namespace ScaraArm

variable {α : Type} [Scalar α] {k : Nat}

namespace Planner

/-- What can happen to a planner. -/
inductive Event (α : Type) [Scalar α] (k : Nat) where
  /-- A segmenter starts a line in a slot. -/
  | start (slot : Nat) (s : Segmenter α) (target : Position α k) (joints : Joints α k)
      (rapid : Bool)
  /-- The button of a family is pressed. -/
  | stop (family : Nat)
  /-- The line in a slot is pulled. -/
  | pull (slot : Nat)

namespace Event

/-- The event starts or stops lines of the family. -/
def concerns (family : Nat) : Event α k → Bool
  | .start _ s _ _ _ => s.family == family
  | .stop f => f == family
  | .pull _ => false

/-- The event puts a new line into the slot. -/
def startsIn (slot : Nat) : Event α k → Bool
  | .start i _ _ _ _ => i == slot
  | _ => false

def pulls (slot : Nat) : Event α k → Bool
  | .pull i => i == slot
  | _ => false

end Event

/-- What an event leaves of a planner. A slot without a line is not pulled. -/
def step (p : Planner α k) : Event α k → Planner α k
  | .start slot s target joints rapid => p.start slot s target joints rapid
  | .stop family => p.stop family
  | .pull slot => ((p.pull? slot).map Prod.snd).getD p

def run (p : Planner α k) (history : List (Event α k)) : Planner α k := history.foldl step p

theorem run_append (p : Planner α k) (before later : List (Event α k)) :
    p.run (before ++ later) = (p.run before).run later := List.foldl_append

theorem run_cons (p : Planner α k) (e : Event α k) (later : List (Event α k)) :
    p.run (e :: later) = (p.step e).run later := rfl

/-! ## Slots -/

variable {p : Planner α k} {slot other family : Nat} {line : ActiveLine α k} {e : Event α k}

theorem line?_setLine_self (p : Planner α k) (slot : Nat) (line : ActiveLine α k) :
    (p.setLine slot line).line? slot = some line := by
  unfold line? setLine
  exact List.lookup_cons_self

theorem line?_setLine_ne (h : slot ≠ other) : (p.setLine other line).line? slot = p.line? slot := by
  unfold line? setLine
  dsimp only
  rw [List.lookup_cons, beq_eq_false_iff_ne.mpr h]
  induction p.lines with
  | nil => rfl
  | cons entry rest ih =>
    obtain ⟨i, l⟩ := entry
    by_cases hi : i = other
    · -- the entry that is replaced
      have hslot : slot ≠ i := by rw [hi]; exact h
      rw [List.filter_cons_of_neg (by simp [hi]), List.lookup_cons, beq_eq_false_iff_ne.mpr hslot]
      exact ih
    · rw [List.filter_cons_of_pos (by simp [hi]), List.lookup_cons, List.lookup_cons]
      cases slot == i with
      | true => rfl
      | false => exact ih

/-- Pulling a slot hands out what its line hands out, and leaves the rest of that line. -/
theorem pull?_of_line (h : p.line? slot = some line) :
    p.pull? slot = some ((line.session.pull (p.isStopped line.family)).1,
      p.setLine slot ⟨line.family, (line.session.pull (p.isStopped line.family)).2⟩) := by
  unfold pull?
  rw [h]
  rfl

theorem step_pull_of_line (h : p.line? slot = some line) :
    p.step (.pull slot)
      = p.setLine slot ⟨line.family, (line.session.pull (p.isStopped line.family)).2⟩ := by
  show ((p.pull? slot).map Prod.snd).getD p = _
  rw [pull?_of_line h]
  rfl

theorem step_pull_of_none (h : p.line? slot = none) : p.step (.pull slot) = p := by
  show ((p.pull? slot).map Prod.snd).getD p = p
  unfold pull?
  rw [h]
  rfl

/-- **A line is its own.** An event that neither pulls its slot nor starts another line there
leaves it as it is. -/
theorem line?_step (hpull : e.pulls slot = false) (hstart : e.startsIn slot = false) :
    (p.step e).line? slot = p.line? slot := by
  cases e with
  | stop f => rfl
  | start i s target joints rapid =>
    have hi : slot ≠ i := Ne.symm (beq_eq_false_iff_ne.mp hstart)
    exact line?_setLine_ne hi
  | pull i =>
    have hi : slot ≠ i := Ne.symm (beq_eq_false_iff_ne.mp hpull)
    cases hline : p.line? i with
    | none => rw [step_pull_of_none hline]
    | some line =>
      rw [step_pull_of_line hline]
      exact line?_setLine_ne hi

/-! ## Buttons -/

theorem isStopped_stop : (p.stop other).isStopped family = (family == other || p.isStopped family) := by
  unfold isStopped stop
  exact List.contains_cons

theorem isStopped_release :
    (p.release other).isStopped family = (family != other && p.isStopped family) := by
  unfold isStopped release
  rw [Bool.eq_iff_iff, Bool.and_eq_true, List.contains_iff_mem, List.contains_iff_mem,
    List.mem_filter, and_comm]

theorem isStopped_step_pull : (p.step (.pull slot)).isStopped family = p.isStopped family := by
  cases hline : p.line? slot with
  | none => rw [step_pull_of_none hline]
  | some line =>
    rw [step_pull_of_line hline]
    rfl

theorem isStopped_step (h : e.concerns family = false) :
    (p.step e).isStopped family = p.isStopped family := by
  cases e with
  | stop f =>
    have hf : family ≠ f := Ne.symm (beq_eq_false_iff_ne.mp h)
    show (p.stop f).isStopped family = _
    rw [isStopped_stop, beq_eq_false_iff_ne.mpr hf, Bool.false_or]
  | start i s target joints rapid =>
    have hf : family ≠ s.family := Ne.symm (beq_eq_false_iff_ne.mp h)
    show (p.release s.family).isStopped family = _
    rw [isStopped_release, bne_iff_ne.mpr hf, Bool.true_and]
  | pull i => exact isStopped_step_pull

/-- **A button is pressed exactly when the latest start or stop of its family was a stop.** -/
theorem isStopped_run_idle (history : List (Event α k)) (family : Nat) :
    (idle.run history).isStopped family = true
      ↔ (history.filter (·.concerns family)).getLast? = some (.stop family) := by
  induction history using List.reverseRecOn with
  | nil => simp [run, idle, isStopped]
  | append_singleton history e ih =>
    rw [run_append, List.filter_append]
    show ((idle.run history).step e).isStopped family = true ↔ _
    cases hc : e.concerns family with
    | false =>
      rw [isStopped_step hc, ih, List.filter_cons_of_neg (by simp [hc]), List.filter_nil,
        List.append_nil]
    | true =>
      rw [List.filter_cons_of_pos hc, List.filter_nil, List.getLast?_concat]
      cases e with
      | stop f =>
        have hf : f = family := eq_of_beq hc
        subst hf
        show ((idle.run history).stop f).isStopped f = true ↔ _
        rw [isStopped_stop]
        simp
      | start i s target joints rapid =>
        have hf : s.family = family := eq_of_beq hc
        subst hf
        show ((idle.run history).release s.family).isStopped s.family = true ↔ _
        rw [isStopped_release]
        simp
      | pull i => cases hc

/-! ## The life of a line -/

/-- A pull leaves a line over, or as it is without any stop. -/
theorem pull_alone {fresh s : Session α k} {n : Nat}
    (hs : s.isFinished = false → s = fresh.after Session.never n) (stop : Bool)
    (hleft : (s.pull stop).2.isFinished = false) :
    (s.pull stop).2 = fresh.after Session.never (n + 1) := by
  cases hfin : s.isFinished with
  | true =>
    rw [Session.pull_of_isFinished hfin, hfin] at hleft
    cases hleft
  | false =>
    cases stop with
    | true =>
      rw [Session.pull_of_stop hfin] at hleft
      cases hleft
    | false =>
      rw [Session.after_succ, ← hs hfin]
      rfl

/-- **While a line is not over, it is the line that was never stopped.** It was pulled as
often as its slot, and nothing else that happened is left in it. -/
theorem line?_run_alone {fresh s : Session α k} {later : List (Event α k)}
    (halive : ∀ e ∈ later, e.startsIn slot = false) {n : Nat}
    (hline : p.line? slot = some ⟨family, s⟩)
    (hs : s.isFinished = false → s = fresh.after Session.never n) :
    ∃ s', (p.run later).line? slot = some ⟨family, s'⟩
      ∧ (s'.isFinished = false →
        s' = fresh.after Session.never (n + later.countP (·.pulls slot))) := by
  induction later generalizing p s n with
  | nil => exact ⟨s, hline, hs⟩
  | cons e later ih =>
    have hstart : e.startsIn slot = false := halive e List.mem_cons_self
    have halive' : ∀ e ∈ later, e.startsIn slot = false :=
      fun e he => halive e (List.mem_cons_of_mem _ he)
    rw [run_cons]
    cases hpull : e.pulls slot with
    | false =>
      rw [List.countP_cons_of_neg (by simp [hpull])]
      exact ih halive' (by rw [line?_step hpull hstart]; exact hline) hs
    | true =>
      rw [List.countP_cons_of_pos hpull]
      have he : e = .pull slot := by
        cases e with
        | pull i => exact congrArg Event.pull (eq_of_beq hpull)
        | start _ _ _ _ _ => cases hpull
        | stop _ => cases hpull
      subst he
      have hline1 : (p.step (.pull slot)).line? slot
          = some ⟨family, (s.pull (p.isStopped family)).2⟩ := by
        rw [step_pull_of_line hline]
        exact line?_setLine_self _ _ _
      obtain ⟨s', hline', hs'⟩ := ih halive' hline1 (pull_alone hs (p.isStopped family))
      refine ⟨s', hline', ?_⟩
      rw [Nat.add_comm _ 1, ← Nat.add_assoc]
      exact hs'

/-- **A line that is over stays over**, whatever happens to its button. -/
theorem line?_run_of_isFinished {s : Session α k} {later : List (Event α k)}
    (halive : ∀ e ∈ later, e.startsIn slot = false) (hline : p.line? slot = some ⟨family, s⟩)
    (hfin : s.isFinished = true) : (p.run later).line? slot = some ⟨family, s⟩ := by
  induction later generalizing p with
  | nil => exact hline
  | cons e later ih =>
    rw [run_cons]
    refine ih (fun e he => halive e (List.mem_cons_of_mem _ he)) ?_
    have hstart : e.startsIn slot = false := halive e List.mem_cons_self
    cases hpull : e.pulls slot with
    | false =>
      rw [line?_step hpull hstart]
      exact hline
    | true =>
      cases e with
      | start _ _ _ _ _ => cases hpull
      | stop _ => cases hpull
      | pull i =>
        have hi : i = slot := eq_of_beq hpull
        subst hi
        rw [step_pull_of_line hline, Session.pull_of_isFinished hfin]
        exact line?_setLine_self _ _ _

/--
**Stopping lines in any order of events.**

A line was started in a slot at some moment of a history, and no other line was started there
since. Let the slot be pulled next, with `session` what is left of the line.
-/
theorem stopping_in_any_order {before later : List (Event α k)} {s : Segmenter α}
    {target : Position α k} {joints : Joints α k} {rapid : Bool}
    (halive : ∀ e ∈ later, e.startsIn slot = false) :
    let history := before ++ .start slot s target joints rapid :: later
    let p := idle.run history
    let fresh := s.start target joints rapid
    let n := later.countP (·.pulls slot)
    let requested := (history.filter (·.concerns s.family)).getLast? = some (.stop s.family)
    ∃ (session next : Session α k) (taken : Pull α k) (p' : Planner α k),
      p.line? slot = some ⟨s.family, session⟩
        ∧ p.pull? slot = some (taken, p')
        ∧ p'.line? slot = some ⟨s.family, next⟩
        -- the pull sees a request if and only if the family's latest start or stop was a stop
        ∧ (p.isStopped s.family = true ↔ requested)
        -- without one, everything is as if the line had never been stopped
        ∧ (session.isFinished = false → ¬ requested →
            session = fresh.after Session.never n
              ∧ taken = fresh.taken Session.never n
              ∧ next = fresh.after Session.never (n + 1))
        -- with one, no waypoint is handed out and the line is over
        ∧ (session.isFinished = false → requested →
            taken = (match session.geometry.joints session.advance.segmentTarget with
              | .ok _ => .finished
              | .error e => .unreachable e)
              ∧ next.isFinished = true)
        -- a line that is over is over for good, and keeps its fields
        ∧ (session.isFinished = true → taken = .finished ∧ next = session
            ∧ ∀ more : List (Event α k), (∀ e ∈ more, e.startsIn slot = false) →
              (p.run more).line? slot = some ⟨s.family, session⟩
                ∧ ((p.run more).pull? slot).map Prod.fst = some .finished)
        -- nothing but its own pulls changes a line, and nothing outside of its family what
        -- it hands out next
        ∧ (∀ e : Event α k, e.pulls slot = false → e.startsIn slot = false →
            (p.step e).line? slot = some ⟨s.family, session⟩
              ∧ (e.concerns s.family = false → ∃ p'', (p.step e).pull? slot = some (taken, p'')
                ∧ p''.line? slot = some ⟨s.family, next⟩))
        -- and the copies of the segmenter are of its family
        ∧ (∀ length, (s.withMaxLength length).family = s.family) := by
  intro history p fresh n requested
  have hbegin : (((idle.run before).step (.start slot s target joints rapid)).line? slot)
      = some ⟨s.family, fresh⟩ := line?_setLine_self _ _ _
  have hnew : fresh.isFinished = false → fresh = fresh.after Session.never 0 := fun _ => rfl
  obtain ⟨session, hline, halone⟩ := line?_run_alone halive hbegin hnew
  rw [Nat.zero_add] at halone
  have hp : p = ((idle.run before).step (.start slot s target joints rapid)).run later := by
    show idle.run history = _
    rw [run_append, run_cons]
  rw [← hp] at hline
  have hseen : p.isStopped s.family = true ↔ requested := isStopped_run_idle history s.family
  refine ⟨session, _, _, _, hline, pull?_of_line hline, line?_setLine_self _ _ _, hseen,
    ?_, ?_, ?_, ?_, Segmenter.withMaxLength_family s⟩
  · intro hfin hnone
    have hbutton : p.isStopped s.family = false := Bool.eq_false_iff.mpr (mt hseen.mp hnone)
    have hsession := halone hfin
    rw [hbutton]
    refine ⟨hsession, ?_, ?_⟩
    · rw [hsession]
      rfl
    · rw [hsession]
      rfl
  · intro hfin hreq
    rw [hseen.mpr hreq]
    show (session.pull true).1 = _ ∧ (session.pull true).2.isFinished = true
    rw [Session.pull_of_stop hfin]
    exact ⟨rfl, rfl⟩
  · intro hfin
    have hpull : session.pull (p.isStopped s.family) = (.finished, session) :=
      Session.pull_of_isFinished hfin
    refine ⟨congrArg Prod.fst hpull, congrArg Prod.snd hpull, fun more hmore => ?_⟩
    have hkept := line?_run_of_isFinished hmore hline hfin
    refine ⟨hkept, ?_⟩
    rw [pull?_of_line hkept]
    exact congrArg some (congrArg Prod.fst (Session.pull_of_isFinished hfin))
  · intro e hpull hstart
    have hkept : (p.step e).line? slot = some ⟨s.family, session⟩ := by
      rw [line?_step hpull hstart]
      exact hline
    refine ⟨hkept, fun hc => ⟨_, ?_, line?_setLine_self (p.step e) slot _⟩⟩
    rw [pull?_of_line hkept, isStopped_step hc]

/-- A line stopped behind its first pull hands out nothing at the second, whatever button is
pressed besides its own. -/
theorem stopping_a_line_of_the_sample_arm :
    let s : Segmenter Float := .forArm Binary64.sampleArm 0
    let target : Position Float 1 := ⟨Binary64.ofInt 300, Binary64.ofInt 0, #v[Binary64.ofInt 7]⟩
    let later : List (Event Float 1) := [.pull 0, .stop 0, .stop 3]
    let p := idle.run (.start 0 s target (.zero 1) false :: later)
    (∀ e ∈ later, e.startsIn 0 = false) ∧ p.isStopped 0 = true
      ∧ ∃ (session next : Session Float 1) (taken : Pull Float 1) (p' : Planner Float 1),
        p.line? 0 = some ⟨0, session⟩ ∧ p.pull? 0 = some (taken, p')
          ∧ p'.line? 0 = some ⟨0, next⟩ ∧ (∀ q, taken ≠ .waypoint q) := by
  intro s target later p
  have halive : ∀ e ∈ later, e.startsIn 0 = false := by simp [later, Event.startsIn]
  obtain ⟨session, next, taken, p', hline, hpull, hnext, hseen, -, hstop, hover, -⟩ :=
    @stopping_in_any_order Float _ 1 0 [] later s target (.zero 1) false halive
  have hlast : ((.start 0 s target (.zero 1) false :: later).filter (·.concerns s.family)).getLast?
      = some (.stop s.family) := rfl
  refine ⟨halive, hseen.mpr hlast, session, next, taken, p', hline, hpull, hnext, fun q hq => ?_⟩
  cases hfin : session.isFinished with
  | true => cases hq.symm.trans (hover hfin).1
  | false =>
    have htaken := hq.symm.trans (hstop hfin hlast).1
    split at htaken
    · cases htaken
    · cases htaken

end Planner

end ScaraArm
