import Mathlib
import ScaraArm.Config.Load
import ScaraArm.Config.Validate
import ScaraArm.Proofs.Binary64.Steps
import ScaraArm.Proofs.Config.Revisions
import ScaraArm.Proofs.Document.Reals

/-!
# What the check leaves

A configuration that was read and checked has scales and a length of pieces that are finite and
above zero, whatever its text says: the check asks for both. Of the distance that axes back off it
only asks that it is not below zero, and what is undefined is not below anything. So it matters
where that distance comes from. All numbers of a configuration are usual ones or stand in its
document, and a document that is read from JSON is finite throughout; but TOML has words for what
is infinite and what is undefined.

A distance of that kind goes unnoticed from there on: undefined, it has every axis back off by
nothing; infinite, it has an axis stand at the very end of the range of step counts.
-/

namespace ScaraArm

open Binary64 Document

/-! ## Finite documents -/

section

variable {format : Config.Format} {v : Value}

theorem Document.Value.IsFinite.of_holds (hv : v.IsFinite) {name : String} {i : Nat} {w : Value}
    (h : Holds name i v w) : w.IsFinite := by
  intro x hx
  cases v with
  | list items => exact hv x (.item (List.mem_of_getElem? h) hx)
  | table entries => exact hv x (.entry h hx)
  | _ => cases h

/-- A number that may be left out is finite if it usually is. -/
theorem Document.Value.IsFinite.withDefault (hv : v.IsFinite) {names : List String}
    (hnodup : names.Nodup) {known : List (String × Value)}
    (h : fields? format names v = some known) {name : String} {i : Nat}
    (hi : names[i]? = some name) {usual x : Float} (husual : usual.isFinite = true)
    (hread : withDefault known name usual Value.float? = some x) : x.isFinite = true := by
  rcases source_of_withDefault hnodup h hi hread with ⟨w, hw, hfloat⟩ | rfl
  · exact (hv.of_holds hw).float hfloat
  · exact husual

/-- The usual numbers are finite. -/
theorem Config.isFinite_usual : ∀ x ∈ usual.numbers, x.isFinite = true := by decide +kernel

theorem Config.isFinite_usualTravel : usualTravel.isFinite = true := by
  refine isFinite_usual _ (List.mem_append_left _ (List.mem_append_right _ ?_))
  have hmem : usualTravel ∈ usualAxis.numbers := by
    simp [usualAxis, AxisSettings.numbers]
  exact List.mem_flatMap.mpr ⟨usualAxis, List.mem_cons_self, hmem⟩

theorem Config.isFinite_usualPulloff : usualHoming.pulloff.isFinite = true :=
  isFinite_usual _ (List.mem_append_right _ List.mem_cons_self)

theorem AxisSettings.isFinite_of_document {axis : AxisSettings Float} (hv : v.IsFinite)
    (h : ofValue? format v = some axis) : ∀ x ∈ axis.numbers, x.isFinite = true := by
  simp only [ofValue?, Option.bind_eq_bind, Option.bind_eq_some_iff] at h
  obtain ⟨known, hknown, steps, hsteps, travel, htravel, ⟨⟩⟩ := h
  have hnodup : ["steps_per_mm", "max_travel"].Nodup := by decide
  obtain ⟨⟨w, hw⟩, hread⟩ := decode_of_required (i := 0) hnodup hknown rfl hsteps
  have hsteps := (hv.of_holds hw).float (hread w hw)
  have htravel := hv.withDefault (i := 1) hnodup hknown rfl Config.isFinite_usualTravel htravel
  simp [numbers, hsteps, htravel]

/-- The distance that axes back off stands in the document or is the usual one. -/
theorem HomingSettings.source_of_pulloff {settings : HomingSettings Float}
    (h : ofValue? format v = some settings) :
    (∃ w, Holds "pulloff" 0 v w ∧ w.float? = some settings.pulloff)
      ∨ settings.pulloff = Config.usualHoming.pulloff := by
  simp only [ofValue?, Option.bind_eq_bind, Option.bind_eq_some_iff] at h
  obtain ⟨known, hknown, pulloff, hpulloff, force, -, mask, -, link, -, ⟨⟩⟩ := h
  have hnodup : ["pulloff", "force_set_origin", "dir_mask", "link_joints"].Nodup := by decide
  exact source_of_withDefault hnodup hknown rfl hpulloff

theorem HomingSettings.isFinite_of_document {settings : HomingSettings Float} (hv : v.IsFinite)
    (h : ofValue? format v = some settings) : ∀ x ∈ settings.numbers, x.isFinite = true := by
  have hpulloff : settings.pulloff.isFinite = true := by
    rcases source_of_pulloff h with ⟨w, hw, hfloat⟩ | husual
    · exact (hv.of_holds hw).float hfloat
    · rw [husual]
      exact Config.isFinite_usualPulloff
  simp [numbers, hpulloff]

theorem RobotConfig.isFinite_of_document {r : RobotConfig} (hv : v.IsFinite)
    (h : ofValue? format v = some r) : ∀ x ∈ r.numbers, x.isFinite = true := by
  simp only [ofValue?, Option.bind_eq_bind, Option.bind_eq_some_iff] at h
  obtain ⟨known, hknown, lower, hlower, upper, hupper, elbow, -, convention, -, length, hlength,
    ⟨⟩⟩ := h
  have hnodup : ["l1", "l2", "elbow", "joint_angles", "max_segment_length"].Nodup := by decide
  have husual : ∀ x ∈ Config.usualRobot.numbers, x.isFinite = true := fun x hx =>
    Config.isFinite_usual x (List.mem_append_left _ (List.mem_append_left _ hx))
  have hlower := hv.withDefault (i := 0) hnodup hknown rfl (husual _ (by simp [numbers])) hlower
  have hupper := hv.withDefault (i := 1) hnodup hknown rfl (husual _ (by simp [numbers])) hupper
  have hlength := hv.withDefault (i := 4) hnodup hknown rfl (husual _ (by simp [numbers])) hlength
  simp [numbers, hlower, hupper, hlength]

namespace Config

/-- Every part of a configuration stands in its document or is the usual one. -/
theorem sources {c : Config} (h : ofValue? format v = some c) :
    ((∃ w, Holds "robot" 0 v w ∧ RobotConfig.ofValue? format w = some c.robot)
        ∨ c.robot = usualRobot)
      ∧ ((∃ w, Holds "axes" 1 v w ∧ axesOfValue? format w = some c.axes) ∨ c.axes = usualAxes)
      ∧ ((∃ w, Holds "homing" 2 v w ∧ HomingSettings.ofValue? format w = some c.homing)
        ∨ c.homing = usualHoming) := by
  simp only [ofValue?, Option.bind_eq_bind, Option.bind_eq_some_iff] at h
  obtain ⟨known, hknown, robot, hrobot, axes, haxes, homing, hhoming, ⟨⟩⟩ := h
  have hnodup : ["robot", "axes", "homing"].Nodup := by decide
  exact ⟨source_of_withDefault hnodup hknown rfl hrobot,
    source_of_withDefault hnodup hknown rfl haxes,
    source_of_withDefault hnodup hknown rfl hhoming⟩

theorem isFinite_of_axes {axes : List (AxisSettings Float)} (hv : v.IsFinite)
    (h : axesOfValue? format v = some axes) {axis : AxisSettings Float} (haxis : axis ∈ axes) :
    ∀ x ∈ axis.numbers, x.isFinite = true := by
  cases v with
  | list items =>
    replace h : items.mapM (AxisSettings.ofValue? format) = some axes := h
    rw [mapM_eq_some_iff] at h
    obtain ⟨i, hi, rfl⟩ := List.mem_iff_getElem.mp haxis
    have hitem : i < items.length := h.length_eq ▸ hi
    refine AxisSettings.isFinite_of_document (fun x hx => ?_) (h.get hitem hi)
    exact hv x (.item (List.getElem_mem hitem) hx)
  | _ => cases h

/-- **What is read from a finite document is finite.** -/
theorem isFinite_of_document {c : Config} (hv : v.IsFinite) (h : ofValue? format v = some c) :
    ∀ x ∈ c.numbers, x.isFinite = true := by
  obtain ⟨hrobot, haxes, hhoming⟩ := sources h
  simp only [numbers, List.forall_mem_append, List.forall_mem_flatMap]
  have husual := isFinite_usual
  simp only [numbers, List.forall_mem_append, List.forall_mem_flatMap] at husual
  refine ⟨⟨?_, ?_⟩, ?_⟩
  · rcases hrobot with ⟨w, hw, hread⟩ | hrobot
    · exact RobotConfig.isFinite_of_document (hv.of_holds hw) hread
    · rw [hrobot]
      exact husual.1.1
  · intro axis haxis
    rcases haxes with ⟨w, hw, hread⟩ | haxes
    · exact isFinite_of_axes (hv.of_holds hw) hread haxis
    · rw [haxes] at haxis
      exact husual.1.2 axis haxis
  · rcases hhoming with ⟨w, hw, hread⟩ | hhoming
    · exact HomingSettings.isFinite_of_document (hv.of_holds hw) hread
    · rw [hhoming]
      exact husual.2

/-- **A configuration that is read from JSON is finite.** -/
theorem isFinite_of_ofJson {s : String} {c : Config} (h : ofJson? s = some c) :
    ∀ x ∈ c.numbers, x.isFinite = true := by
  obtain ⟨v, hv, hread⟩ := Option.bind_eq_some_iff.mp h
  exact isFinite_of_document (Json.isFinite_of_parse hv) hread

/-- Where a distance that is not finite comes from. -/
theorem holds_of_not_isFinite {c : Config} (h : ofValue? format v = some c)
    (hinfinite : ¬ c.homing.pulloff.isFinite = true) :
    ∃ homing, Holds "homing" 2 v homing ∧ Holds "pulloff" 0 homing (.real c.homing.pulloff) := by
  rcases (sources h).2.2 with ⟨homing, hhoming, hread⟩ | hhoming
  · rcases HomingSettings.source_of_pulloff hread with ⟨w, hw, hfloat⟩ | hpulloff
    · refine ⟨homing, hhoming, ?_⟩
      cases w with
      | integer n =>
        have hinteger : (Value.integer n).IsFinite := by
          intro x hx
          cases hx
        exact absurd (hinteger.float hfloat) hinfinite
      | real x =>
        cases hfloat
        exact hw
      | _ => cases hfloat
    · rw [hpulloff] at hinfinite
      exact absurd isFinite_usualPulloff hinfinite
  · rw [hhoming] at hinfinite
    exact absurd isFinite_usualPulloff hinfinite

end Config

end

/-! ## What the check asks for -/

namespace Config

/-- **The check accepts a configuration** with the right number of axes whose scales and whose
length of pieces are finite and above zero, unless axes are to back off by less than nothing. -/
theorem validate_eq_ok_iff {c : Config} :
    c.validate = .ok ()
      ↔ c.axes.length = axisCount
        ∧ (∀ axis ∈ c.axes, Scalar.isPositive axis.stepsPerUnit = true)
        ∧ Scalar.isPositive c.robot.maxSegmentLength = true
        ∧ ¬ c.homing.pulloff < ofInt 0 := by
  have haxes : c.badAxis? = none ↔ ∀ axis ∈ c.axes, Scalar.isPositive axis.stepsPerUnit = true := by
    unfold badAxis?
    simp only [List.findIdx?_eq_none_iff, Bool.not_eq_false']
  have hpulloff :
      Scalar.lt c.homing.pulloff Scalar.zero = false ↔ ¬ c.homing.pulloff < ofInt 0 :=
    decide_eq_false_iff_not
  rw [← haxes, ← hpulloff]
  unfold validate
  by_cases hcount : c.axes.length = axisCount
  · rw [if_neg (not_not.mpr hcount)]
    cases hbad : c.badAxis? with
    | some i => simp
    | none =>
      cases hlength : Scalar.isPositive c.robot.maxSegmentLength with
      | false => simp
      | true => cases hlow : Scalar.lt c.homing.pulloff Scalar.zero <;> simp [hcount]
  · rw [if_pos hcount]
    simp [hcount]

end Config

theorem Binary64.finite_of_isPositive {x : Float} (h : Scalar.isPositive x = true) :
    x.isFinite = true ∧ 0 < value x := by
  obtain ⟨a, ha⟩ := exists_measures .native h
  refine ⟨ha.isFinite, ?_⟩
  rw [ha.value_eq]
  exact EReal.coe_pos.mpr ha.pos

theorem Binary64.not_isFinite_of_isNaN_or_top {x : Float} (h : x.isNaN = true ∨ value x = ⊤) :
    ¬ x.isFinite = true := by
  intro hfin
  rcases h with hnan | htop
  · exact isNaN_iff.mp hnan (isNumber_of_isFinite hfin)
  · obtain ⟨r, hr, -⟩ := exists_real hfin
    exact EReal.coe_ne_top r (hr.symm.trans htop)

/-- What is not below zero may be undefined, or infinite. -/
theorem Binary64.cases_of_not_lt_zero {x : Float} (h : ¬ x < ofInt 0) :
    (x.isFinite = true ∧ 0 ≤ value x) ∨ x.isNaN = true ∨ value x = ⊤ := by
  by_cases hx : IsNumber x
  · have hzero : value (ofInt 0) = 0 := by
      rw [value_ofInt (by norm_num), Int.cast_zero, EReal.coe_zero]
    have hnonneg : 0 ≤ value x := by
      rw [lt_iff, hzero] at h
      exact not_lt.mp fun hlt => h ⟨hx, isNumber_ofInt 0, hlt⟩
    by_cases hfin : x.isFinite = true
    · exact Or.inl ⟨hfin, hnonneg⟩
    · rcases value_of_not_isFinite hx hfin with htop | hbot
      · exact Or.inr (Or.inr htop)
      · rw [hbot] at hnonneg
        exact absurd hnonneg EReal.bot_lt_zero.not_ge
  · exact Or.inr (Or.inl (isNaN_iff.mpr hx))

/-! ## Backing off -/

namespace HomingSettings

variable {settings : HomingSettings Float} {axis : AxisSettings Float} {i : Nat} {a : ℝ}

/-- How far a homed axis stands from its switch, in steps, before it is made a step count. -/
def pulloffDistance (settings : HomingSettings Float) (i : Nat) (axis : AxisSettings Float) :
    Float :=
  (if settings.positiveAxes.contains i then axis.maxTravel + settings.pulloff
    else -settings.pulloff) * axis.stepsPerUnit

theorem pulloffSteps_of_force (h : settings.forceSetOrigin = true) :
    settings.pulloffSteps i axis = toStep (settings.pulloffDistance i axis) := if_pos h

/-- A finite distance is made a step count from a number. -/
theorem isNumber_pulloffDistance (hscale : Measures axis.stepsPerUnit a)
    (htravel : axis.maxTravel.isFinite = true) (h : settings.pulloff.isFinite = true) :
    IsNumber (settings.pulloffDistance i axis) := by
  refine (hscale.mul ?_).1
  split_ifs
  · exact isNumber_add (isNumber_of_isFinite htravel) h
  · exact isNumber_neg.mpr (isNumber_of_isFinite h)

/-- From an undefined distance nothing is made but the count of no step. -/
theorem pulloffSteps_of_isNaN (h : settings.pulloff.isNaN = true) :
    ¬ IsNumber (settings.pulloffDistance i axis) ∧ settings.pulloffSteps i axis = 0 := by
  have hpulloff := isNaN_iff.mp h
  have hdistance : ¬ IsNumber (settings.pulloffDistance i axis) := by
    intro hnumber
    have hunits := (isNumber_of_mul hnumber).1
    split_ifs at hunits
    · exact hpulloff (isNumber_of_add hunits).2
    · exact hpulloff (isNumber_neg.mp hunits)
  refine ⟨hdistance, ?_⟩
  by_cases hforce : settings.forceSetOrigin = true
  · rw [pulloffSteps_of_force hforce, toStep_of_not_isNumber hdistance]
  · exact if_neg hforce

/-- From an infinite distance an end of the range is made. -/
theorem pulloffSteps_of_top (hscale : Measures axis.stepsPerUnit a)
    (htravel : axis.maxTravel.isFinite = true) (hforce : settings.forceSetOrigin = true)
    (h : value settings.pulloff = ⊤) :
    settings.pulloffSteps i axis
      = if settings.positiveAxes.contains i then Int32.maxValue else Int32.minValue := by
  have hnumber : IsNumber settings.pulloff := isNumber_of_infinity (s := .positive) h
  rw [pulloffSteps_of_force hforce, pulloffDistance]
  split_ifs
  · have hsum := isNumber_add_of_isFinite htravel hnumber
    have hunits : value (axis.maxTravel + settings.pulloff) = ⊤ := by
      obtain ⟨r, hr, -⟩ := exists_real htravel
      rw [value_add hsum, hr, h, EReal.coe_add_top, nearest_top]
    refine toStep_of_top ?_
    rw [(hscale.mul hsum).2, hunits, EReal.top_mul_coe_of_pos hscale.pos, nearest_top]
  · have hunits : value (-settings.pulloff) = ⊥ := by
      rw [value_neg, h, EReal.neg_top]
    refine toStep_of_bot ?_
    rw [(hscale.mul (isNumber_neg.mpr hnumber)).2, hunits, EReal.bot_mul_coe_of_pos hscale.pos,
      nearest_bot]

end HomingSettings

/-! ## Configurations that were read and checked -/

namespace Config

theorem parse_toml_eq_ok_iff {s : String} {c : Config} :
    parse .toml s = .ok c ↔ ofToml? s = some c := by
  unfold parse
  cases ofToml? s <;> simp

theorem parse_json_eq_ok_iff {s : String} {c : Config} :
    parse .json s = .ok c ↔ ofJson? s = some c := by
  unfold parse
  cases ofJson? s <;> simp

/--
**What is left of a text by reading and checking it.**

The scale of every axis and the length of the longest piece are finite and above zero. The
distance that axes back off is finite and not below zero, or else it is undefined or infinite, and
then the text is TOML and its document has that number there. JSON leaves no number of any kind
that is not finite.

An undefined distance is made the count of no step, by way of no number at all. From a finite one
a count is made by way of a number, and from an infinite one an end of the range, if the travel of
the axis is finite.
-/
theorem numbers_of_checked {format : Format} {s : String} {c : Config}
    (hread : parse format s = .ok c) (hcheck : c.validate = .ok ()) :
    (∀ axis ∈ c.axes, axis.stepsPerUnit.isFinite = true ∧ 0 < value axis.stepsPerUnit)
      ∧ (c.robot.maxSegmentLength.isFinite = true ∧ 0 < value c.robot.maxSegmentLength)
      ∧ (format = .json → ∀ x ∈ c.numbers, x.isFinite = true)
      ∧ ((c.homing.pulloff.isFinite = true ∧ 0 ≤ value c.homing.pulloff)
        ∨ (c.homing.pulloff.isNaN = true ∨ value c.homing.pulloff = ⊤) ∧ format = .toml
          ∧ ∃ v homing, Toml.parse? s = some v ∧ Holds "homing" 2 v homing
            ∧ Holds "pulloff" 0 homing (.real c.homing.pulloff))
      ∧ ∀ i, ∀ axis ∈ c.axes,
        (c.homing.pulloff.isNaN = true → ¬ IsNumber (c.homing.pulloffDistance i axis)
            ∧ c.homing.pulloffSteps i axis = 0)
          ∧ (axis.maxTravel.isFinite = true →
            (c.homing.pulloff.isFinite = true → IsNumber (c.homing.pulloffDistance i axis))
              ∧ (value c.homing.pulloff = ⊤ → c.homing.forceSetOrigin = true →
                c.homing.pulloffSteps i axis = if c.homing.positiveAxes.contains i
                  then Int32.maxValue else Int32.minValue)) := by
  obtain ⟨-, hscales, hlength, hpulloff⟩ := validate_eq_ok_iff.mp hcheck
  have hjson : format = .json → ∀ x ∈ c.numbers, x.isFinite = true := by
    rintro rfl
    exact isFinite_of_ofJson (parse_json_eq_ok_iff.mp hread)
  refine ⟨?_, finite_of_isPositive hlength, hjson, ?_, ?_⟩
  · intro axis haxis
    exact finite_of_isPositive (hscales axis haxis)
  · rcases cases_of_not_lt_zero hpulloff with husable | hwrong
    · exact Or.inl husable
    · have hinfinite := not_isFinite_of_isNaN_or_top hwrong
      cases format with
      | json => exact absurd (hjson rfl _ (List.mem_append_right _ List.mem_cons_self)) hinfinite
      | toml =>
        obtain ⟨v, hv, hvalue⟩ := Option.bind_eq_some_iff.mp (parse_toml_eq_ok_iff.mp hread)
        obtain ⟨homing, hhoming, hheld⟩ := holds_of_not_isFinite hvalue hinfinite
        exact Or.inr ⟨hwrong, rfl, v, homing, hv, hhoming, hheld⟩
  · intro i axis haxis
    obtain ⟨a, ha⟩ := exists_measures .native (hscales axis haxis)
    refine ⟨HomingSettings.pulloffSteps_of_isNaN, fun htravel => ⟨?_, ?_⟩⟩
    · exact HomingSettings.isNumber_pulloffDistance ha htravel
    · exact fun htop hforce => HomingSettings.pulloffSteps_of_top ha htravel hforce htop

/-- Backing off without end is read from TOML and passes the check, and the first axis is then at
the lower end of the range. -/
theorem numbers_of_the_endless_backoff :
    let endless : HomingSettings Float := ⟨.ofBits 0x7FF0000000000000, true, .empty, false⟩
    parse .toml "[homing]\npulloff = inf\nforce_set_origin = true\n"
        = .ok ⟨usualRobot, usualAxes, endless⟩
      ∧ endless.pulloffSteps 0 usualAxis = Int32.minValue := by
  have hread : parse .toml "[homing]\npulloff = inf\nforce_set_origin = true\n"
      = .ok ⟨usualRobot, usualAxes, .ofBits 0x7FF0000000000000, true, .empty, false⟩ := by
    decide +kernel
  obtain ⟨-, -, -, -, hoffset⟩ := numbers_of_checked hread (by decide +kernel)
  obtain ⟨-, hfinite⟩ := hoffset 0 usualAxis List.mem_cons_self
  exact ⟨hread, (hfinite isFinite_usualTravel).2 rfl rfl⟩

/-- The check lets a distance pass that is undefined. -/
theorem undefined_backoff_passes :
    ¬ ∀ (s : String) (c : Config), parse .toml s = .ok c → c.validate = .ok () →
      c.homing.pulloff.isFinite = true := by
  intro h
  have hread : parse .toml "[homing]\npulloff = nan\n"
      = .ok ⟨usualRobot, usualAxes, .ofBits 0x7FF8000000000000, false, .empty, false⟩ := by
    decide +kernel
  have hfin := h _ _ hread (by decide +kernel)
  revert hfin
  decide +kernel

end Config

end ScaraArm
