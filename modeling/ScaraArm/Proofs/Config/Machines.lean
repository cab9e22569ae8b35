import Mathlib
import ScaraArm.Machine
import ScaraArm.Proofs.Config.Checked
import ScaraArm.Proofs.Line.Waypoints

/-!
# The machine of a checked configuration

The numbers of a configuration are looked at in four places that know nothing of one another: the
check, the table of axes, the arm and the segmenter. If two of them drew the line differently, a
configuration could pass the check and still have no table of axes, or its lines could be cut
into other pieces than it asks for, because a segmenter passes over a length that it cannot use.

They draw the same line: a double is usable if it is finite and above zero. The check leaves the
links to the arm, and is alone in asking for usable scales and for a distance that axes back off
that is not below zero; a machine is built whatever these are. So what a machine is refused for
behind the check is a link, and what a machine is built in spite of is never the number of axes.
-/

namespace ScaraArm

open Binary64

/-- A double that a length or a scale can be. -/
def Binary64.Usable (x : Float) : Prop := x.isFinite = true ∧ 0 < value x

theorem Binary64.isPositive_iff_usable {x : Float} : Scalar.isPositive x = true ↔ Usable x := by
  refine ⟨finite_of_isPositive, fun ⟨hfin, hpos⟩ => Bool.and_eq_true_iff.mpr ⟨hfin, ?_⟩⟩
  have hzero : value (ofInt 0) = 0 := by
    rw [value_ofInt (by norm_num), Int.cast_zero, EReal.coe_zero]
  exact decide_eq_true
    (lt_iff.mpr ⟨isNumber_ofInt 0, isNumber_of_isFinite hfin, hzero.symm ▸ hpos⟩)

/-! ## The parts of a machine -/

/-- The first of the two links that no arm can have. -/
def RobotConfig.FirstBadLink (r : RobotConfig) (e : InvalidLink Float) : Prop :=
  (¬ Usable r.lower ∧ e = ⟨.lower, r.lower⟩)
    ∨ (Usable r.lower ∧ ¬ Usable r.upper ∧ e = ⟨.upper, r.upper⟩)

/-- The arm is the one that is asked for. -/
structure RobotConfig.IsArm (r : RobotConfig) (g : Geometry Float) : Prop where
  lower : g.lower = r.lower
  upper : g.upper = r.upper
  elbow : g.elbow = r.elbow
  convention : g.convention = r.convention

/-- An arm is built from two usable links, and otherwise the first bad one is named. -/
theorem RobotConfig.build_cases (r : RobotConfig) :
    (∃ e, Geometry.build r.lower r.upper r.elbow r.convention = .error e ∧ r.FirstBadLink e)
      ∨ ∃ g, Geometry.build r.lower r.upper r.elbow r.convention = .ok g ∧ r.IsArm g
        ∧ Usable r.lower ∧ Usable r.upper := by
  unfold Geometry.build
  by_cases hl : Usable r.lower
  · rw [dif_pos (isPositive_iff_usable.mpr hl)]
    by_cases hu : Usable r.upper
    · rw [dif_pos (isPositive_iff_usable.mpr hu)]
      exact Or.inr ⟨_, rfl, ⟨rfl, rfl, rfl, rfl⟩, hl, hu⟩
    · rw [dif_neg (mt isPositive_iff_usable.mp hu)]
      exact Or.inl ⟨_, rfl, Or.inr ⟨hl, hu, rfl⟩⟩
  · rw [dif_neg (mt isPositive_iff_usable.mp hl)]
    exact Or.inl ⟨_, rfl, Or.inl ⟨hl, rfl⟩⟩

theorem RobotConfig.FirstBadLink.not_usable {r : RobotConfig} {e : InvalidLink Float}
    (h : r.FirstBadLink e) : ¬ (Usable r.lower ∧ Usable r.upper) := by
  rintro ⟨hl, hu⟩
  rcases h with ⟨hbad, -⟩ | ⟨-, hbad, -⟩
  · exact hbad hl
  · exact hbad hu

theorem Config.axisTable_eq_ok_iff {c : Config} {axes : AxisTable Float 1} :
    c.axisTable = .ok axes ↔ axes.toList = c.axes := by
  rw [← PerAxis.ofList?_eq_some_iff]
  unfold axisTable
  split
  · rename_i taken htaken
    rw [htaken, Except.ok.injEq, Option.some.injEq]
  · rename_i hnone
    rw [hnone]
    exact iff_of_false nofun nofun

/-- The axes make a table just if there are as many as a machine has. -/
theorem Config.exists_axisTable_iff {c : Config} :
    (∃ axes, c.axisTable = .ok axes) ↔ c.axes.length = axisCount := by
  simp only [axisTable_eq_ok_iff, ← PerAxis.ofList?_eq_some_iff, ← Option.isSome_iff_exists,
    ← Option.ne_none_iff_isSome, Ne, PerAxis.ofList?_eq_none_iff, not_not]
  rfl

/-- A usable length is taken as it is. -/
theorem Segmenter.withMaxLength_of_usable {s : Segmenter Float} {length : Float}
    (h : Usable length) : (s.withMaxLength length).maxLength = length := by
  unfold withMaxLength
  rw [if_pos (isPositive_iff_usable.mpr h)]

/-! ## The machine -/

namespace Machine

variable {c : Config} {m : Machine}

/-- The machine is the one that is configured, but for the length of its pieces. -/
structure IsOf (m : Machine) (c : Config) : Prop where
  arm : c.robot.IsArm m.geometry
  axes : m.axes.toList = c.axes
  /-- It cuts lines up for its own arm. -/
  segmenter : m.segmenter.geometry = m.geometry
  /-- It homes its own arm and axes, in the way that is configured. -/
  homing : m.homing = ⟨m.geometry, m.axes, c.homing⟩

/-- **Everything that building a machine can bring.** -/
theorem build_cases (c : Config) :
    (∃ e, build c = .error (.geometry e) ∧ c.robot.FirstBadLink e)
      ∨ (∃ e, build c = .error (.axes e) ∧ c.axes.length ≠ Config.axisCount)
      ∨ ∃ m, build c = .ok m ∧ m.IsOf c ∧ (Usable c.robot.lower ∧ Usable c.robot.upper)
        ∧ (Usable c.robot.maxSegmentLength → m.segmenter.maxLength = c.robot.maxSegmentLength) := by
  unfold build
  -- the arm is built first, so a bad link is reported whatever the axes are
  rcases c.robot.build_cases with ⟨e, he, hbad⟩ | ⟨g, hg, harm, husable⟩
  · rw [he]
    exact Or.inl ⟨e, rfl, hbad⟩
  rw [hg]
  cases htable : c.axisTable with
  | error e =>
    refine Or.inr (Or.inl ⟨e, rfl, fun hlength => ?_⟩)
    obtain ⟨axes, haxes⟩ := Config.exists_axisTable_iff.mpr hlength
    cases htable.symm.trans haxes
  | ok axes =>
    have haxes := Config.axisTable_eq_ok_iff.mp htable
    have hgeometry := (Segmenter.forArm g 0).withMaxLength_geometry c.robot.maxSegmentLength
    exact Or.inr (Or.inr ⟨_, rfl, ⟨harm, haxes, hgeometry, rfl⟩, husable,
      Segmenter.withMaxLength_of_usable⟩)

theorem IsOf.length_axes (h : m.IsOf c) : c.axes.length = Config.axisCount := by
  rw [← h.axes, PerAxis.length_toList]
  rfl

theorem IsOf.homing_axes (h : m.IsOf c) : m.homing.axes.toList = c.axes := by
  rw [h.homing]
  exact h.axes

end Machine

/-! ## Faults -/

namespace Config

/-- A configuration has a fault: what the fault says of it is true. -/
def Has (c : Config) : Fault → Prop
  | .axisCount found => found = c.axes.length ∧ found ≠ axisCount
  | .stepsPerUnit index => ∃ axis, c.axes[index]? = some axis ∧ ¬ Usable axis.stepsPerUnit
  | .maxSegmentLength => ¬ Usable c.robot.maxSegmentLength
  | .pulloff => c.homing.pulloff < ofInt 0

/-- **The check reports a fault that the configuration has.** -/
theorem has_of_validate {c : Config} {fault : Fault} (h : c.validate = .error fault) :
    c.Has fault := by
  unfold validate at h
  by_cases hcount : c.axes.length = axisCount
  · rw [if_neg (not_not.mpr hcount)] at h
    cases hbad : c.badAxis? with
    | some index =>
      rw [hbad] at h
      cases h
      obtain ⟨hlt, hscale, -⟩ := List.findIdx?_eq_some_iff_getElem.mp hbad
      -- the index is one of the axes, and the search stopped there
      refine ⟨c.axes[index], List.getElem?_eq_getElem hlt, fun husable => ?_⟩
      rw [isPositive_iff_usable.mpr husable] at hscale
      cases hscale
    | none =>
      rw [hbad] at h
      dsimp only at h
      split_ifs at h with hlength hpulloff
      · cases h
        intro husable
        rw [isPositive_iff_usable.mpr husable] at hlength
        cases hlength
      · cases h
        have hlow : c.homing.pulloff < ofInt 0 := of_decide_eq_true hpulloff
        exact hlow
  · rw [if_pos hcount] at h
    cases h
    exact ⟨rfl, hcount⟩

/-- A fault that a machine can be built in spite of is none of the number of axes. -/
theorem Has.ne_axisCount {c : Config} {fault : Fault} (h : c.Has fault)
    (hlength : c.axes.length = axisCount) (found : Nat) : fault ≠ .axisCount found := by
  rintro rfl
  exact h.2 (h.1.trans hlength)

/--
**What passes the check makes the machine that it asks for.**

A configuration that the check accepts has a table of axes, and it makes no machine just if one of
its links is not usable; the first such link is then reported. The machine has the arm, the axes
and the length of pieces of the configuration, number for number.

A machine of a configuration that the check refuses has as many axes as it should. What is wrong
is a scale, the length of pieces or the distance that axes back off.
-/
theorem machine_of_checked (c : Config) :
    (c.validate = .ok () →
      (∃ axes, c.axisTable = .ok axes ∧ axes.toList = c.axes)
        ∧ ((∃ e, Machine.build c = .error e) ↔ ¬ (Usable c.robot.lower ∧ Usable c.robot.upper))
        ∧ (∀ e, Machine.build c = .error e →
          ∃ link, e = .geometry link ∧ c.robot.FirstBadLink link)
        ∧ ∀ m, Machine.build c = .ok m →
          m.IsOf c ∧ m.homing.axes.toList = c.axes
            ∧ m.segmenter.maxLength = c.robot.maxSegmentLength)
      ∧ ∀ m fault, Machine.build c = .ok m → c.validate = .error fault →
        c.Has fault ∧ c.axes.length = axisCount ∧ ∀ found, fault ≠ .axisCount found := by
  constructor
  · intro hcheck
    obtain ⟨hcount, -, hlength, -⟩ := validate_eq_ok_iff.mp hcheck
    obtain ⟨axes, haxes⟩ := exists_axisTable_iff.mpr hcount
    refine ⟨⟨axes, haxes, axisTable_eq_ok_iff.mp haxes⟩, ?_⟩
    -- of all that building can bring the check has ruled out the number of axes
    rcases Machine.build_cases c with
      ⟨link, he, hbad⟩ | ⟨e, -, hcount'⟩ | ⟨m, hm, hof, husable, hmax⟩
    · rw [he]
      refine ⟨iff_of_true ⟨_, rfl⟩ hbad.not_usable, ?_, ?_⟩
      · rintro _ ⟨⟩
        exact ⟨link, rfl, hbad⟩
      · intro m hm
        cases hm
    · exact absurd hcount hcount'
    · rw [hm]
      refine ⟨iff_of_false ?_ (not_not.mpr husable), ?_, ?_⟩
      · rintro ⟨e, he⟩
        cases he
      · intro e he
        cases he
      · rintro _ ⟨⟩
        exact ⟨hof, hof.homing_axes, hmax (isPositive_iff_usable.mp hlength)⟩
  · -- a machine that was built has all its axes, whatever the check says
    intro m fault hm hfault
    have hhas := has_of_validate hfault
    rcases Machine.build_cases c with ⟨_, he, -⟩ | ⟨_, he, -⟩ | ⟨m', hm', hof, -⟩
    · cases he.symm.trans hm
    · cases he.symm.trans hm
    · exact ⟨hhas, hof.length_axes, hhas.ne_axisCount hof.length_axes⟩

/-- A small arm with pieces of five millimetres makes its machine. It also does with axes that back
off by less than nothing, which the check refuses. -/
theorem machine_of_the_small_arm :
    let small : Config := ⟨⟨300, 250, .down, .relative, 5⟩, [⟨80, -360⟩, ⟨90, -200⟩, ⟨400, -150⟩],
      ⟨1.5, true, ⟨2⟩, false⟩⟩
    let backwards : Config := { small with homing := ⟨-1, true, ⟨2⟩, false⟩ }
    (small.validate = .ok () ∧ ∃ m, Machine.build small = .ok m ∧ m.IsOf small
        ∧ m.segmenter.maxLength = 5)
      ∧ backwards.validate = .error .pulloff ∧ ∃ m, Machine.build backwards = .ok m
        ∧ backwards.Has .pulloff ∧ backwards.axes.length = axisCount := by
  intro small backwards
  have hcheck : small.validate = .ok () := by decide +kernel
  have hfault : backwards.validate = .error .pulloff := by decide +kernel
  have hlower : Usable 300 := isPositive_iff_usable.mp (by decide +kernel)
  have hupper : Usable 250 := isPositive_iff_usable.mp (by decide +kernel)
  obtain ⟨hchecked, -⟩ := machine_of_checked small
  obtain ⟨-, hfails, -, hmachine⟩ := hchecked hcheck
  refine ⟨⟨hcheck, ?_⟩, hfault, ?_⟩
  · cases hm : Machine.build small with
    | error e => exact absurd ⟨hlower, hupper⟩ (hfails.mp ⟨e, hm⟩)
    | ok m =>
      obtain ⟨hof, -, hlength⟩ := hmachine m hm
      exact ⟨m, rfl, hof, hlength⟩
  · rcases Machine.build_cases backwards with ⟨_, -, hbad⟩ | ⟨_, -, hcount⟩ | ⟨m, hm, -⟩
    · exact absurd ⟨hlower, hupper⟩ hbad.not_usable
    · exact absurd rfl hcount
    · obtain ⟨hhas, hlength, -⟩ := (machine_of_checked backwards).2 m _ hm hfault
      exact ⟨m, hm, hhas, hlength⟩

end Config

end ScaraArm
