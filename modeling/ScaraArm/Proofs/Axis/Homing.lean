import ScaraArm.Axis.InPlace
import ScaraArm.Proofs.Line.RunLaw

/-!
# Homing changes all or nothing

Homing in place leaves what homing by value returns, and leaves the record as it was when that
fails (`settle`). For one axis there is a single write to follow. For the whole machine the
writes are a loop, and its invariant is that the axes up to the one just written have their
new counts and those behind it their old ones; the angles were solved before the first write,
so no count that is written depends on one that was.

From that the two operations can be compared axis by axis on the same record.
-/

namespace ScaraArm

namespace Overwrite

variable {ε β γ : Type} {k : Nat}

/-- What is left of a record by an operation that changes all of it or nothing. -/
def settle (record : StepRecord k) : Except ε (StepRecord k) → Except ε Unit × StepRecord k
  | .ok new => (.ok (), new)
  | .error e => (.error e, record)

theorem settle_of_error {record : StepRecord k} {result : Except ε (StepRecord k)} {e : ε}
    (h : (settle record result).1 = .error e) : (settle record result).2 = record := by
  cases result with
  | ok new => cases h
  | error e => rfl

theorem perform_get_bind (next : StepRecord k → Overwrite ε k β) (record : StepRecord k) :
    perform (get >>= next) record = perform (next record) record := rfl

theorem perform_attempt_bind (result : Except ε β) (next : β → Overwrite ε k γ)
    (record : StepRecord k) :
    perform (attempt result >>= next) record
      = match result with
        | .ok b => perform (next b) record
        | .error e => (.error e, record) := by
  cases result with
  | ok b => rfl
  | error e => rfl

/-- A loop of changes carries them out one after the other. -/
theorem perform_forM_modify (change : Nat → StepRecord k → StepRecord k) (axes : List Nat)
    (record : StepRecord k) :
    perform (axes.forM fun i => modify (change i) : Overwrite ε k Unit) record
      = (.ok (), axes.foldl (fun left i => change i left) record) := by
  induction axes generalizing record with
  | nil => rfl
  | cons i axes ih => exact ih (change i record)

end Overwrite

namespace Homing

open Overwrite

variable {α : Type} [Scalar α] {k : Nat} {h : Homing α k} {cycle : AxisMask} {i : Nat}
  {record : StepRecord k}

/-! ## By value, axis by axis -/

theorem setAxis_of_joint (hi : i < 2) :
    h.setAxis i record
      = match h.recordedAngles record with
        | .ok q => .ok (record.set i (h.angleSteps q i))
        | .error e => .error (.unreachable e) := by
  match i with
  | 0 => rfl
  | 1 => rfl

theorem setAxis_of_carried (hlow : 2 ≤ i) (hi : i < k + 2) :
    h.setAxis i record = .ok (record.set i 0) := by
  obtain ⟨i, rfl⟩ := Nat.exists_eq_add_of_le' hlow
  unfold setAxis
  simp only [record.put_of_lt hi]

theorem setAxis_of_le (hi : k + 2 ≤ i) :
    h.setAxis i record = .error (.outOfRange ⟨k + 2, i⟩) := by
  obtain ⟨i, rfl⟩ := Nat.exists_eq_add_of_le' (Nat.le_trans (Nat.le_add_left 2 k) hi)
  unfold setAxis
  simp only [record.put_of_le hi]

/-- Setting an axis changes no other. -/
theorem get?_of_setAxis {new : StepRecord k} (hset : h.setAxis i record = .ok new) {j : Nat}
    (hj : j ≠ i) : new.get? j = record.get? j := by
  by_cases hjoint : i < 2
  · rw [setAxis_of_joint hjoint] at hset
    cases hq : h.recordedAngles record with
    | error e =>
      rw [hq] at hset
      cases hset
    | ok q =>
      rw [hq] at hset
      cases hset
      rw [record.get?_set (by omega), if_neg hj]
  · by_cases hi : i < k + 2
    · rw [setAxis_of_carried (Nat.le_of_not_lt hjoint) hi] at hset
      cases hset
      rw [record.get?_set hi, if_neg hj]
    · rw [setAxis_of_le (Nat.le_of_not_lt hi)] at hset
      cases hset

theorem homedSteps_eq {settings : AxisSettings α} (hi : i < 2)
    (haxis : h.axes.get? i = some settings) (q : JointPair α) :
    h.homedSteps cycle q i
      = if cycle.contains i then h.angleSteps q i + h.settings.pulloffSteps i settings
        else h.angleSteps q i := by
  match i with
  | 0 =>
    cases haxis
    rfl
  | 1 =>
    cases haxis
    rfl

theorem get?_homed (h : Homing α k) (cycle : AxisMask) (q : JointPair α) (j : Nat) :
    (⟨h.jointSteps cycle 0 h.axes.first q.q1, h.jointSteps cycle 1 h.axes.second q.q2,
      Vector.replicate k 0⟩ : StepRecord k).get? j
      = if j < k + 2 then some (h.homedSteps cycle q j) else none := by
  match j with
  | 0 => exact (if_pos (by omega)).symm
  | 1 => exact (if_pos (by omega)).symm
  | j + 2 =>
    rw [PerAxis.get?_add_two, Vector.getElem?_replicate]
    by_cases hj : j < k
    · rw [if_pos hj, if_pos (by omega)]
      rfl
    · rw [if_neg hj, if_neg (by omega)]

theorem setMachine_of_nonempty (hcycle : cycle.isEmpty = false) :
    h.setMachine cycle record
      = match h.recordedAngles record with
        | .ok q => .ok ⟨h.jointSteps cycle 0 h.axes.first q.q1,
            h.jointSteps cycle 1 h.axes.second q.q2, Vector.replicate k 0⟩
        | .error e => .error e := by
  unfold setMachine
  rw [hcycle]
  rfl

/-- A sum of step counts is the sum of the numbers, if that is a step count. -/
theorem toInt_add_of_fits {m n : Int32} (hlow : -2 ^ 31 ≤ m.toInt + n.toInt)
    (hhigh : m.toInt + n.toInt < 2 ^ 31) : (m + n).toInt = m.toInt + n.toInt := by
  rw [Int32.toInt_add]
  exact Int.bmod_eq_of_le (by omega) (by omega)

/-- A joint in the cycle stands off from where it is put alone by its pull-off, any other not. -/
theorem toInt_homedSteps {settings : AxisSettings α} (hi : i < 2)
    (haxis : h.axes.get? i = some settings) (q : JointPair α) {sum : Int}
    (hsum : sum = (h.angleSteps q i).toInt
      + if cycle.contains i then (h.settings.pulloffSteps i settings).toInt else 0)
    (hlow : -2 ^ 31 ≤ sum) (hhigh : sum < 2 ^ 31) : (h.homedSteps cycle q i).toInt = sum := by
  rw [homedSteps_eq hi haxis]
  cases hmem : cycle.contains i with
  | false =>
    rw [hmem, if_neg Bool.false_ne_true, Int.add_zero] at hsum
    rw [if_neg Bool.false_ne_true, hsum]
  | true =>
    rw [hmem, if_pos rfl] at hsum
    rw [hsum] at hlow hhigh ⊢
    exact toInt_add_of_fits hlow hhigh

/-! ## In place -/

omit [Scalar α] in
/-- A single write changes all or nothing. -/
theorem perform_put (steps : Int32) :
    perform (attempt ((record.put i steps).mapError AxisError.outOfRange) >>= set) record
      = settle record ((record.put i steps).mapError (AxisError.outOfRange (α := α))) := by
  rw [perform_attempt_bind]
  cases record.put i steps with
  | ok new => rfl
  | error e => rfl

/-- **Setting one axis in place changes all or nothing.** -/
theorem perform_overwriteAxis (h : Homing α k) (i : Nat) (record : StepRecord k) :
    perform (h.overwriteAxis i) record = settle record (h.setAxis i record) := by
  unfold overwriteAxis
  rw [perform_get_bind]
  by_cases hjoint : i < 2
  · rw [if_pos hjoint, perform_attempt_bind, setAxis_of_joint hjoint]
    cases h.recordedAngles record with
    | error e => rfl
    | ok q =>
      refine (perform_put (h.angleSteps q i)).trans ?_
      rw [record.put_of_lt (by omega)]
      rfl
  · rw [if_neg hjoint]
    refine (perform_put 0).trans ?_
    by_cases hi : i < k + 2
    · rw [record.put_of_lt hi, setAxis_of_carried (Nat.le_of_not_lt hjoint) hi]
      rfl
    · rw [record.put_of_le (Nat.le_of_not_lt hi), setAxis_of_le (Nat.le_of_not_lt hi)]
      rfl

/-- **The invariant of a loop that overwrites axis by axis.** The axes written so far have their
new values, the others those they had. -/
theorem get?_foldl_set (record : StepRecord k) (new : Nat → Int32) {n : Nat}
    (hn : n ≤ k + 2) (j : Nat) :
    ((List.range n).foldl (fun left i => left.set i (new i)) record).get? j
      = if j < n then some (new j) else record.get? j := by
  induction n with
  | zero => rfl
  | succ n ih =>
    rw [List.range_succ, List.foldl_append, List.foldl_cons, List.foldl_nil,
      PerAxis.get?_set _ (by omega), ih (by omega)]
    by_cases hj : j = n
    · rw [if_pos hj, if_pos (by omega), hj]
    · rw [if_neg hj]
      by_cases hlt : j < n
      · rw [if_pos hlt, if_pos (by omega)]
      · rw [if_neg hlt, if_neg (by omega)]

/-- **Setting the whole machine in place changes all or nothing.** -/
theorem perform_overwriteMachine (h : Homing α k) (cycle : AxisMask) (record : StepRecord k) :
    perform (h.overwriteMachine cycle) record = settle record (h.setMachine cycle record) := by
  unfold overwriteMachine setMachine
  cases hcycle : cycle.isEmpty with
  | true => rfl
  | false =>
    show perform (get >>= fun now => attempt (h.recordedAngles now) >>= fun q =>
      (List.range (k + 2)).forM fun i => modify (·.set i (h.homedSteps cycle q i))) record = _
    rw [perform_get_bind, perform_attempt_bind]
    cases h.recordedAngles record with
    | error e => rfl
    | ok q =>
      show perform ((List.range (k + 2)).forM _) record = (.ok (), _)
      rw [perform_forM_modify]
      refine congrArg _ (PerAxis.ext_get? fun j => ?_)
      rw [get?_foldl_set _ _ (Nat.le_refl _), get?_homed]
      by_cases hj : j < k + 2
      · rw [if_pos hj, if_pos hj]
      · rw [if_neg hj, if_neg hj]
        exact record.get?_eq_none (Nat.le_of_not_lt hj)

/-! What that comes to for one axis. -/

theorem overwriteAxis_of_joint (hi : i < 2) {q : JointPair α} (hq : h.recordedAngles record = .ok q) :
    perform (h.overwriteAxis i) record = (.ok (), record.set i (h.angleSteps q i)) := by
  rw [perform_overwriteAxis, setAxis_of_joint hi, hq]
  rfl

theorem overwriteAxis_of_error (hi : i < 2) {e : Unreachable α}
    (he : h.recordedAngles record = .error e) :
    perform (h.overwriteAxis i) record = (.error (.unreachable e), record) := by
  rw [perform_overwriteAxis, setAxis_of_joint hi, he]
  rfl

theorem overwriteAxis_of_carried (hlow : 2 ≤ i) (hi : i < k + 2) :
    perform (h.overwriteAxis i) record = (.ok (), record.set i 0) := by
  rw [perform_overwriteAxis, setAxis_of_carried hlow hi]
  rfl

theorem overwriteAxis_of_le (hi : k + 2 ≤ i) :
    perform (h.overwriteAxis i) record = (.error (.outOfRange ⟨k + 2, i⟩), record) := by
  rw [perform_overwriteAxis, setAxis_of_le hi]
  rfl

/-- Overwriting an axis changes no other, whatever comes of it. -/
theorem get?_overwriteAxis {j : Nat} (hj : j ≠ i) :
    (perform (h.overwriteAxis i) record).2.get? j = record.get? j := by
  rw [perform_overwriteAxis]
  cases hset : h.setAxis i record with
  | error e => rfl
  | ok new => exact get?_of_setAxis hset hj

/-! And for the whole machine. -/

theorem overwriteMachine_of_isEmpty (hempty : cycle.isEmpty = true) :
    perform (h.overwriteMachine cycle) record = (.ok (), record) := by
  rw [perform_overwriteMachine, setMachine, if_pos hempty]
  rfl

section Solved

variable (hcycle : cycle.isEmpty = false)

include hcycle

theorem overwriteMachine_of_error {e : Unreachable α} (he : h.recordedAngles record = .error e) :
    perform (h.overwriteMachine cycle) record = (.error e, record) := by
  rw [perform_overwriteMachine, setMachine_of_nonempty hcycle, he]
  rfl

/-- Once the angles are solved, every axis gets its count. -/
theorem overwriteMachine_of_ok {q : JointPair α} (hq : h.recordedAngles record = .ok q) :
    ∃ new, perform (h.overwriteMachine cycle) record = (.ok (), new)
      ∧ ∀ j < k + 2, new.get? j = some (h.homedSteps cycle q j) := by
  refine ⟨_, ?_, fun j hj => (h.get?_homed cycle q j).trans (if_pos hj)⟩
  rw [perform_overwriteMachine, setMachine_of_nonempty hcycle, hq]
  rfl

theorem exists_angles (hok : (perform (h.overwriteMachine cycle) record).1 = .ok ()) :
    ∃ q, h.recordedAngles record = .ok q := by
  cases hq : h.recordedAngles record with
  | ok q => exact ⟨q, rfl⟩
  | error e =>
    rw [overwriteMachine_of_error hcycle hq] at hok
    cases hok

/-- The machine fails exactly as either joint does alone. -/
theorem overwriteMachine_error_iff (hi : i < 2) (e : Unreachable α) :
    (perform (h.overwriteMachine cycle) record).1 = .error e
      ↔ (perform (h.overwriteAxis i) record).1 = .error (.unreachable e) := by
  cases hq : h.recordedAngles record with
  | ok q =>
    obtain ⟨new, hnew, -⟩ := overwriteMachine_of_ok hcycle hq
    rw [hnew, overwriteAxis_of_joint hi hq]
    exact ⟨nofun, nofun⟩
  | error e' =>
    rw [overwriteMachine_of_error hcycle hq, overwriteAxis_of_error hi hq]
    simp only [Except.error.injEq, AxisError.unreachable.injEq]

/-- Once the angles are solved, a joint gets the count it is given alone, and its pull-off if it
is in the cycle. -/
theorem overwriteMachine_joint (hi : i < 2)
    (hok : (perform (h.overwriteMachine cycle) record).1 = .ok ()) :
    (perform (h.overwriteAxis i) record).1 = .ok ()
      ∧ ∃ settings alone together, h.axes.get? i = some settings
        ∧ (perform (h.overwriteAxis i) record).2.get? i = some alone
        ∧ (perform (h.overwriteMachine cycle) record).2.get? i = some together
        ∧ let sum := alone.toInt
            + if cycle.contains i then (h.settings.pulloffSteps i settings).toInt else 0
          (-2 ^ 31 ≤ sum → sum < 2 ^ 31 → together.toInt = sum) := by
  obtain ⟨q, hq⟩ := exists_angles hcycle hok
  obtain ⟨new, hnew, hget⟩ := overwriteMachine_of_ok hcycle hq
  obtain ⟨settings, hsettings⟩ : ∃ settings, h.axes.get? i = some settings := by
    match i with
    | 0 => exact ⟨_, rfl⟩
    | 1 => exact ⟨_, rfl⟩
  rw [hnew, overwriteAxis_of_joint hi hq]
  refine ⟨rfl, settings, h.angleSteps q i, h.homedSteps cycle q i, hsettings, ?_,
    hget i (by omega), toInt_homedSteps hi hsettings q rfl⟩
  exact (record.get?_set (by omega) i _).trans (if_pos rfl)

theorem overwriteMachine_carried (hlow : 2 ≤ i) (hi : i < k + 2)
    (hok : (perform (h.overwriteMachine cycle) record).1 = .ok ()) :
    (perform (h.overwriteMachine cycle) record).2.get? i = some 0 := by
  obtain ⟨q, hq⟩ := exists_angles hcycle hok
  obtain ⟨new, hnew, hget⟩ := overwriteMachine_of_ok hcycle hq
  obtain ⟨i, rfl⟩ := Nat.exists_eq_add_of_le' hlow
  rw [hnew]
  exact hget (i + 2) hi

end Solved

/--
**Homing the whole machine and homing axis by axis agree, and either changes all or nothing.**

Each operation is carried out in place, on a copy of the same record.
-/
theorem homing_in_place (h : Homing α k) (cycle : AxisMask) (record : StepRecord k) :
    let machine := perform (h.overwriteMachine cycle) record
    let axis (i : Nat) := perform (h.overwriteAxis i) record
    -- a cycle of no axis changes nothing
    (cycle.isEmpty = true → machine = (.ok (), record))
      -- any other fails exactly as either joint does
      ∧ (cycle.isEmpty = false → ∀ i < 2, ∀ e,
          machine.1 = .error e ↔ (axis i).1 = .error (.unreachable e))
      -- or else gives a joint the count it is given alone, with the pull-off if it is in the cycle
      ∧ (cycle.isEmpty = false → machine.1 = .ok () → ∀ i < 2, (axis i).1 = .ok ()
          ∧ ∃ settings alone together, h.axes.get? i = some settings
            ∧ (axis i).2.get? i = some alone ∧ machine.2.get? i = some together
            ∧ let sum := alone.toInt
                + if cycle.contains i then (h.settings.pulloffSteps i settings).toInt else 0
              (-2 ^ 31 ≤ sum → sum < 2 ^ 31 → together.toInt = sum))
      -- and a carried axis zero, in the cycle or not
      ∧ (cycle.isEmpty = false → machine.1 = .ok () →
          ∀ i, 2 ≤ i → i < k + 2 → machine.2.get? i = some 0)
      -- an axis alone is the only one that is changed, and a carried one is always set to zero
      ∧ (∀ i j, j ≠ i → (axis i).2.get? j = record.get? j)
      ∧ (∀ i, 2 ≤ i → i < k + 2 → (axis i).1 = .ok () ∧ (axis i).2.get? i = some 0)
      -- a failure leaves the record as it was, and so does an axis that is not there
      ∧ (∀ e, machine.1 = .error e → machine.2 = record)
      ∧ (∀ i e, (axis i).1 = .error e → (axis i).2 = record)
      ∧ (∀ i, k + 2 ≤ i → axis i = (.error (.outOfRange ⟨k + 2, i⟩), record))
      -- by value the operations are the same
      ∧ machine = settle record (h.setMachine cycle record)
      ∧ ∀ i, axis i = settle record (h.setAxis i record) := by
  intro machine axis
  have hmachine : machine = settle record (h.setMachine cycle record) :=
    h.perform_overwriteMachine cycle record
  have haxis : ∀ i, axis i = settle record (h.setAxis i record) :=
    fun i => h.perform_overwriteAxis i record
  refine ⟨overwriteMachine_of_isEmpty, fun hcycle i hi => overwriteMachine_error_iff hcycle hi,
    fun hcycle hok i hi => overwriteMachine_joint hcycle hi hok,
    fun hcycle hok i hlow hi => overwriteMachine_carried hcycle hlow hi hok,
    fun i j => get?_overwriteAxis, fun i hlow hi => ?_, fun e he => ?_, fun i e he => ?_,
    fun i => overwriteAxis_of_le, hmachine, haxis⟩
  · rw [show axis i = (.ok (), record.set i 0) from overwriteAxis_of_carried hlow hi]
    exact ⟨rfl, (record.get?_set hi i 0).trans (if_pos rfl)⟩
  · rw [hmachine] at he ⊢
    exact settle_of_error he
  · rw [haxis] at he ⊢
    exact settle_of_error he

/-- The lower joint of the sample arm is homed: alone and together it gets the same count up to
its pull-off, and from a point a metre away neither gets any. -/
theorem homing_in_place_of_the_sample_arm :
    let scale : AxisSettings Float := ⟨Binary64.ofInt 100, Binary64.ofInt (-360)⟩
    let h : Homing Float 1 := ⟨Binary64.sampleArm, ⟨scale, scale, #v[scale]⟩,
      ⟨Binary64.ofInt 5, true, .empty, false⟩⟩
    let cycle := AxisMask.single 0
    let near : StepRecord 1 := ⟨30000, 0, #v[7]⟩
    let far : StepRecord 1 := ⟨100000, 0, #v[7]⟩
    cycle.isEmpty = false
      ∧ (perform (h.overwriteMachine cycle) near).1 = .ok ()
      ∧ (perform (h.overwriteAxis 0) near).1 = .ok ()
      ∧ (perform (h.overwriteMachine cycle) near).2.get? 2 = some 0
      ∧ ∃ e, (perform (h.overwriteMachine cycle) far).1 = .error e
        ∧ (perform (h.overwriteAxis 0) far).1 = .error (.unreachable e)
        ∧ (perform (h.overwriteMachine cycle) far).2 = far
        ∧ (perform (h.overwriteAxis 0) far).2 = far := by
  intro scale h cycle near far
  have hcycle : cycle.isEmpty = false := by decide
  obtain ⟨q, hq⟩ : ∃ q, h.recordedAngles near = .ok q :=
    Geometry.inverse_of_reaches (by decide +kernel)
  have hfar : h.recordedAngles far = .error _ :=
    Geometry.inverse_of_not_reaches (by decide +kernel)
  obtain ⟨new, hnew, -⟩ := overwriteMachine_of_ok hcycle hq
  have hok : (perform (h.overwriteMachine cycle) near).1 = .ok () := congrArg Prod.fst hnew
  have herror := congrArg Prod.fst (overwriteMachine_of_error hcycle hfar)
  obtain ⟨-, -, hjoint, hcarried, -⟩ := homing_in_place h cycle near
  obtain ⟨-, hfails, -, -, -, -, hmachine, haxis, -⟩ := homing_in_place h cycle far
  have halone := (hfails hcycle 0 (by decide) _).mp herror
  exact ⟨hcycle, hok, (hjoint hcycle hok 0 (by decide)).1,
    hcarried hcycle hok 2 (Nat.le_refl 2) (by decide), _, herror, halone, hmachine _ herror,
    haxis 0 _ halone⟩

end Homing

end ScaraArm
