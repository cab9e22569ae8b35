import Mathlib
import ScaraArm.Config.Encode
import ScaraArm.Proofs.Config.Fields
import ScaraArm.Proofs.Decimal.ReadBack

/-!
# Configurations come back from their documents

A configuration is written with every field, and read with the usual value for every field that
is missing. The two meet in the documents that say what a configuration says
(`Config.Documents`): at every level of them a field may be missing if it has its usual value,
and there may be fields of other names. The document that the configuration is written as is
one of them, and each of them is read as the configuration, as long as its numbers are finite
and the reader gets them back from their numerals. A reader that takes the nearest double gets
all of them back (`Config.readsBack_nearest`).

The other way round, nothing that a document holds is passed over when it is read. A number
that is not finite is written as no number at all, so its document is refused; and an axis is
refused without its scale, the one field that has no usual value.
-/

namespace ScaraArm

open Document

/-! ## Numbers -/

/-- A way to turn numerals into doubles gets a double back from the numeral it is written
with. -/
def Config.ReadsBack (number : Numeral → Option Float) (x : Float) : Prop :=
  ∀ n ∈ Value.jsonStyle.numeral? x, number n = some x

/-- Taking the double nearest to what a numeral says gets every double back. -/
theorem Config.readsBack_nearest (x : Float) :
    ReadsBack (fun n => some n.toDecimal.toFloat) x :=
  fun _ hn => congrArg some (Decimal.toFloat_of_numeral hn)

namespace Document.Value

variable {number : Numeral → Option Float}

theorem reread_real {x : Float} (hfinite : x.isFinite = true)
    (hback : Config.ReadsBack number x) : (real x).reread number = .real x := by
  unfold reread
  cases hn : jsonStyle.numeral? x with
  | none => exact absurd hfinite (Decimal.numeral_eq_none_iff.mp hn)
  | some n =>
    have hwhole := (Decimal.isReal_of_numeral hn).isWhole
    show Json.ofNumeral number n = _
    simp [Json.ofNumeral, hwhole, hback n hn]

theorem isFinite_of_reread {x y : Float} (h : ((real x).reread number).float? = some y) :
    x.isFinite = true := by
  by_contra hx
  rw [reread, Decimal.numeral_eq_none_iff.mpr hx] at h
  cases h

theorem isNegative_intNumeral (n : Int) : (intNumeral n).isNegative = decide (n < 0) := by
  unfold intNumeral Numeral.signOf Numeral.isNegative
  by_cases h : n < 0 <;> simp [h]

theorem wholeValue_intNumeral (n : Int) : (intNumeral n).wholeValue = n := by
  have hwhole : (intNumeral n).whole = Nat.toDigits 10 n.natAbs := rfl
  unfold Numeral.wholeValue
  rw [isNegative_intNumeral, hwhole, Nat.ofDigitChars_ten_toDigits]
  dsimp only
  by_cases h : n < 0
  · rw [if_pos (decide_eq_true h)]
    omega
  · rw [if_neg (by simpa using h)]
    omega

/-- An integer that a word holds comes back. -/
theorem reread_integer {n : Int} (h : fitsWord n = true) :
    (integer n).reread number = .integer n := by
  have hzero : (decide (n < 0) && n == 0) = false := by
    rw [Bool.and_eq_false_imp]
    intro hn
    simpa using (of_decide_eq_true hn).ne
  have hwhole : (intNumeral n).isWhole = true := rfl
  show Json.ofNumeral number (intNumeral n) = _
  unfold Json.ofNumeral
  simp only [hwhole, wholeValue_intNumeral, h, isNegative_intNumeral, hzero]
  rfl

end Document.Value

/-! ## What a document may look like -/

/-- Where an axis is written: its travel may be left out if it is the usual one. -/
def AxisSettings.fields (axis : AxisSettings Float) : List Field :=
  [⟨"steps_per_mm", (· = .real axis.stepsPerUnit), False⟩,
    ⟨"max_travel", (· = .real axis.maxTravel), axis.maxTravel = Config.usualTravel⟩]

/-- Where the homing settings are written: each may be left out if it is the usual one. -/
def HomingSettings.fields (h : HomingSettings Float) : List Field :=
  let usual := Config.usualHoming
  [⟨"pulloff", (· = .real h.pulloff), h.pulloff = usual.pulloff⟩,
    ⟨"force_set_origin", (· = .boolean h.forceSetOrigin),
      h.forceSetOrigin = usual.forceSetOrigin⟩,
    ⟨"dir_mask", (· = h.positiveAxes.toValue), h.positiveAxes = usual.positiveAxes⟩,
    ⟨"link_joints", (· = .boolean h.linkJoints), h.linkJoints = usual.linkJoints⟩]

/-- Where an arm is written: each field may be left out if it is the usual one. -/
def RobotConfig.fields (r : RobotConfig) : List Field :=
  let usual := Config.usualRobot
  [⟨"l1", (· = .real r.lower), r.lower = usual.lower⟩,
    ⟨"l2", (· = .real r.upper), r.upper = usual.upper⟩,
    ⟨"elbow", (· = .text r.elbow.name), r.elbow = usual.elbow⟩,
    ⟨"joint_angles", (· = .text r.convention.name), r.convention = usual.convention⟩,
    ⟨"max_segment_length", (· = .real r.maxSegmentLength),
      r.maxSegmentLength = usual.maxSegmentLength⟩]

namespace Config

/-- Where a configuration is written: each part may be left out if it is the usual one. -/
def fields (c : Config) : List Field :=
  [⟨"robot", IsTableOf c.robot.fields, c.robot = usualRobot⟩,
    ⟨"axes", fun v => ∃ items, v = .list items
        ∧ List.Forall₂ (fun (axis : AxisSettings Float) => IsTableOf axis.fields) c.axes items,
      c.axes = usualAxes⟩,
    ⟨"homing", IsTableOf c.homing.fields, c.homing = usualHoming⟩]

/-- A document that says what a configuration says: fields with their usual value may be left
out at every level, and unknown ones may stand between them. -/
abbrev Documents (c : Config) (v : Value) : Prop := IsTableOf c.fields v

end Config

/-! ## A document with every field -/

theorem AxisSettings.isTableOf_toValue (axis : AxisSettings Float) :
    IsTableOf axis.fields axis.toValue :=
  isTableOf_of_forall₂ (by decide : ["steps_per_mm", "max_travel"].Nodup) (by simp [fields])

theorem HomingSettings.isTableOf_toValue (h : HomingSettings Float) :
    IsTableOf h.fields h.toValue :=
  isTableOf_of_forall₂
    (by decide : ["pulloff", "force_set_origin", "dir_mask", "link_joints"].Nodup)
    (by simp [fields])

theorem RobotConfig.isTableOf_toValue (r : RobotConfig) : IsTableOf r.fields r.toValue :=
  isTableOf_of_forall₂
    (by decide : ["l1", "l2", "elbow", "joint_angles", "max_segment_length"].Nodup)
    (by simp [fields])

/-- The document that a configuration is written as says what it says. -/
theorem Config.documents_toValue (c : Config) : c.Documents c.toValue := by
  refine isTableOf_of_forall₂ (by decide : ["robot", "axes", "homing"].Nodup) ?_
  refine .cons ⟨rfl, c.robot.isTableOf_toValue⟩ (.cons ⟨rfl, _, rfl, ?_⟩
    (.cons ⟨rfl, c.homing.isTableOf_toValue⟩ .nil))
  rw [List.forall₂_map_right_iff]
  exact List.forall₂_same.mpr fun axis _ => axis.isTableOf_toValue

/-! ## Reading it -/

section

variable {number : Numeral → Option Float} {format : Config.Format} {v : Value}

theorem Document.float_eq_of_real {x : Float}
    (h : x.isFinite = true ∧ Config.ReadsBack number x) (v : Value) (hv : v = .real x) :
    (v.reread number).float? = some x := by
  rw [hv, Value.reread_real h.1 h.2]
  rfl

theorem Document.bool_eq_of_boolean {b : Bool} (v : Value) (hv : v = .boolean b) :
    (v.reread number).bool? = some b := by
  rw [hv]
  rfl

/-- The numbers of the settings of an axis. -/
def AxisSettings.numbers (axis : AxisSettings Float) : List Float :=
  [axis.stepsPerUnit, axis.maxTravel]

theorem AxisSettings.ofValue_eq {axis : AxisSettings Float}
    (hnumbers : ∀ x ∈ axis.numbers, x.isFinite = true ∧ Config.ReadsBack number x)
    (h : IsTableOf axis.fields v) : ofValue? format (v.reread number) = some axis := by
  obtain ⟨entries, rfl, h⟩ := h
  obtain ⟨known, hknown, hfinds⟩ := h.fields_eq format
  have hsteps : required known "steps_per_mm" Value.float? = some axis.stepsPerUnit :=
    h.required_eq hfinds 0 rfl (float_eq_of_real (hnumbers _ (by simp [numbers])))
  have htravel : withDefault known "max_travel" Config.usualTravel Value.float?
      = some axis.maxTravel :=
    h.withDefault_eq hfinds 1 rfl (float_eq_of_real (hnumbers _ (by simp [numbers]))) Eq.symm
  replace hknown : fields? format ["steps_per_mm", "max_travel"] _ = some known := hknown
  simp only [ofValue?, hknown, hsteps, htravel, Option.bind_eq_bind, Option.bind_some]

/-- The number of a mask is a byte, and a word holds it. -/
theorem AxisMask.ofValue_toValue (m : AxisMask) :
    ofValue? (m.toValue.reread number) = some m := by
  have hlt : m.bits.toNat < 256 := m.bits.toNat_lt
  have hword : Value.fitsWord m.bits.toNat = true := by
    simp only [Value.fitsWord, Int64.toInt_minValue, UInt64.size, decide_eq_true_eq]
    omega
  have hbyte : (Value.integer m.bits.toNat).byte? = some m.bits := by
    simp only [Value.byte?]
    rw [if_pos (by omega), Int.toNat_natCast, UInt8.ofNat_toNat]
  show ((Value.integer m.bits.toNat).reread number).byte?.map mk = some m
  rw [Value.reread_integer hword, hbyte]
  rfl

theorem Elbow.ofName_name (e : Elbow) : ofName? e.name = some e := by
  cases e <;> rfl

theorem AngleConvention.ofName_name (c : AngleConvention) : ofName? c.name = some c := by
  cases c <;> rfl

/-- The numbers of the homing settings. -/
def HomingSettings.numbers (h : HomingSettings Float) : List Float := [h.pulloff]

theorem HomingSettings.ofValue_eq {settings : HomingSettings Float}
    (hnumbers : ∀ x ∈ settings.numbers, x.isFinite = true ∧ Config.ReadsBack number x)
    (h : IsTableOf settings.fields v) : ofValue? format (v.reread number) = some settings := by
  obtain ⟨entries, rfl, h⟩ := h
  obtain ⟨known, hknown, hfinds⟩ := h.fields_eq format
  have hpulloff : withDefault known "pulloff" Config.usualHoming.pulloff Value.float?
      = some settings.pulloff :=
    h.withDefault_eq hfinds 0 rfl (float_eq_of_real (hnumbers _ (by simp [numbers]))) Eq.symm
  have hforce : withDefault known "force_set_origin" Config.usualHoming.forceSetOrigin Value.bool?
      = some settings.forceSetOrigin :=
    h.withDefault_eq hfinds 1 rfl bool_eq_of_boolean Eq.symm
  have hmask : withDefault known "dir_mask" Config.usualHoming.positiveAxes AxisMask.ofValue?
      = some settings.positiveAxes := by
    refine h.withDefault_eq hfinds 2 rfl ?_ Eq.symm
    rintro v rfl
    exact settings.positiveAxes.ofValue_toValue
  have hlink : withDefault known "link_joints" Config.usualHoming.linkJoints Value.bool?
      = some settings.linkJoints :=
    h.withDefault_eq hfinds 3 rfl bool_eq_of_boolean Eq.symm
  replace hknown :
    fields? format ["pulloff", "force_set_origin", "dir_mask", "link_joints"] _ = some known :=
    hknown
  simp only [ofValue?, hknown, hpulloff, hforce, hmask, hlink, Option.bind_eq_bind,
    Option.bind_some]

/-- The numbers of an arm. -/
def RobotConfig.numbers (r : RobotConfig) : List Float := [r.lower, r.upper, r.maxSegmentLength]

theorem RobotConfig.ofValue_eq {r : RobotConfig}
    (hnumbers : ∀ x ∈ r.numbers, x.isFinite = true ∧ Config.ReadsBack number x)
    (h : IsTableOf r.fields v) : ofValue? format (v.reread number) = some r := by
  obtain ⟨entries, rfl, h⟩ := h
  obtain ⟨known, hknown, hfinds⟩ := h.fields_eq format
  have hlower : withDefault known "l1" Config.usualRobot.lower Value.float? = some r.lower :=
    h.withDefault_eq hfinds 0 rfl (float_eq_of_real (hnumbers _ (by simp [numbers]))) Eq.symm
  have hupper : withDefault known "l2" Config.usualRobot.upper Value.float? = some r.upper :=
    h.withDefault_eq hfinds 1 rfl (float_eq_of_real (hnumbers _ (by simp [numbers]))) Eq.symm
  have helbow : withDefault known "elbow" Config.usualRobot.elbow (choice? format Elbow.ofName?)
      = some r.elbow := by
    refine h.withDefault_eq hfinds 2 rfl ?_ Eq.symm
    rintro v rfl
    exact r.elbow.ofName_name
  have hconvention : withDefault known "joint_angles" Config.usualRobot.convention
      (choice? format AngleConvention.ofName?) = some r.convention := by
    refine h.withDefault_eq hfinds 3 rfl ?_ Eq.symm
    rintro v rfl
    exact r.convention.ofName_name
  have hsegment : withDefault known "max_segment_length" Config.usualRobot.maxSegmentLength
      Value.float? = some r.maxSegmentLength :=
    h.withDefault_eq hfinds 4 rfl (float_eq_of_real (hnumbers _ (by simp [numbers]))) Eq.symm
  replace hknown :
    fields? format ["l1", "l2", "elbow", "joint_angles", "max_segment_length"] _ = some known :=
    hknown
  simp only [ofValue?, hknown, hlower, hupper, helbow, hconvention, hsegment,
    Option.bind_eq_bind, Option.bind_some]

namespace Config

/-- The numbers of a configuration. -/
def numbers (c : Config) : List Float :=
  c.robot.numbers ++ c.axes.flatMap AxisSettings.numbers ++ c.homing.numbers

/-- **What a document says of a configuration is what is read from it**, if the numbers come
back. -/
theorem ofValue_eq {c : Config}
    (hnumbers : ∀ x ∈ c.numbers, x.isFinite = true ∧ ReadsBack number x)
    (h : c.Documents v) : ofValue? format (v.reread number) = some c := by
  simp only [numbers, List.forall_mem_append, List.forall_mem_flatMap] at hnumbers
  obtain ⟨⟨hrobot, haxes⟩, hhoming⟩ := hnumbers
  obtain ⟨entries, rfl, h⟩ := h
  obtain ⟨known, hknown, hfinds⟩ := h.fields_eq format
  have hrobot : withDefault known "robot" usualRobot (RobotConfig.ofValue? format)
      = some c.robot :=
    h.withDefault_eq hfinds 0 rfl (fun _ => RobotConfig.ofValue_eq hrobot) Eq.symm
  have haxes : withDefault known "axes" usualAxes (axesOfValue? format) = some c.axes := by
    refine h.withDefault_eq hfinds 1 rfl ?_ Eq.symm
    rintro _ ⟨items, rfl, hitems⟩
    show (Value.rereadItems number items).mapM (AxisSettings.ofValue? format) = some c.axes
    rw [rereadItems_eq, mapM_eq_some_iff, List.forall₂_map_left_iff]
    refine .flip (.imp (fun axis item haxis => ?_)
      ((List.forall₂_and_left _ _).mpr ⟨haxes, hitems⟩))
    exact AxisSettings.ofValue_eq haxis.1 haxis.2
  have hhoming : withDefault known "homing" usualHoming (HomingSettings.ofValue? format)
      = some c.homing :=
    h.withDefault_eq hfinds 2 rfl (fun _ => HomingSettings.ofValue_eq hhoming) Eq.symm
  replace hknown : fields? format ["robot", "axes", "homing"] _ = some known := hknown
  simp only [ofValue?, hknown, hrobot, haxes, hhoming, Option.bind_eq_bind, Option.bind_some]

/-- The text of a document that says what a configuration says is read as that
configuration. -/
theorem ofJson_of_documents {c : Config}
    (hnumbers : ∀ x ∈ c.numbers, x.isFinite = true ∧ ReadsBack number x)
    (h : c.Documents v) : ofJsonWith? number v.toJson = some c := by
  rw [ofJsonWith?, Json.parse_toJson]
  exact ofValue_eq hnumbers h

/-- With the nearest doubles nothing is asked of a configuration but that it is finite. -/
theorem ofJson_of_documents_nearest {c : Config} (hfinite : ∀ x ∈ c.numbers, x.isFinite = true)
    (h : c.Documents v) :
    ofJsonWith? (fun n => some n.toDecimal.toFloat) v.toJson = some c :=
  ofJson_of_documents (fun x hx => ⟨hfinite x hx, readsBack_nearest x⟩) h

end Config

end

/-! ## Documents that are refused -/

section

variable {number : Numeral → Option Float} {format : Config.Format} {v : Value}

/-- An axis is read only from a document that holds its scale. -/
theorem AxisSettings.holds_of_ofValue {axis : AxisSettings Float}
    (h : ofValue? format v = some axis) :
    (∃ w, Holds "steps_per_mm" 0 v w)
      ∧ (∀ w, Holds "steps_per_mm" 0 v w → w.float? = some axis.stepsPerUnit)
      ∧ ∀ w, Holds "max_travel" 1 v w → w.float? = some axis.maxTravel := by
  simp only [ofValue?, Option.bind_eq_bind, Option.bind_eq_some_iff] at h
  obtain ⟨known, hknown, steps, hsteps, travel, htravel, ⟨⟩⟩ := h
  have hnodup : ["steps_per_mm", "max_travel"].Nodup := by decide
  have hread :
      (∃ w, Holds "steps_per_mm" 0 v w) ∧ ∀ w, Holds "steps_per_mm" 0 v w → w.float? = some steps :=
    decode_of_required hnodup hknown rfl hsteps
  exact ⟨hread.1, hread.2, fun w => decode_of_withDefault hnodup hknown rfl htravel⟩

/-- The numbers of homing settings that are read are those that the document holds. -/
theorem HomingSettings.holds_of_ofValue {settings : HomingSettings Float}
    (h : ofValue? format v = some settings) :
    ∀ w, Holds "pulloff" 0 v w → w.float? = some settings.pulloff := by
  simp only [ofValue?, Option.bind_eq_bind, Option.bind_eq_some_iff] at h
  obtain ⟨known, hknown, pulloff, hpulloff, force, -, mask, -, link, -, ⟨⟩⟩ := h
  have hnodup : ["pulloff", "force_set_origin", "dir_mask", "link_joints"].Nodup := by decide
  exact fun w => decode_of_withDefault hnodup hknown rfl hpulloff

/-- The numbers of an arm that is read are those that the document holds. -/
theorem RobotConfig.holds_of_ofValue {r : RobotConfig} (h : ofValue? format v = some r) :
    (∀ w, Holds "l1" 0 v w → w.float? = some r.lower)
      ∧ (∀ w, Holds "l2" 1 v w → w.float? = some r.upper)
      ∧ ∀ w, Holds "max_segment_length" 4 v w → w.float? = some r.maxSegmentLength := by
  simp only [ofValue?, Option.bind_eq_bind, Option.bind_eq_some_iff] at h
  obtain ⟨known, hknown, lower, hlower, upper, hupper, elbow, -, convention, -, length, hlength,
    ⟨⟩⟩ := h
  have hnodup : ["l1", "l2", "elbow", "joint_angles", "max_segment_length"].Nodup := by decide
  exact ⟨fun w => decode_of_withDefault hnodup hknown rfl hlower,
    fun w => decode_of_withDefault hnodup hknown rfl hupper,
    fun w => decode_of_withDefault hnodup hknown rfl hlength⟩

/-- Every part of a configuration that is read is read from what the document holds there. -/
theorem Config.holds_of_ofValue {c : Config} (h : ofValue? format v = some c) :
    (∀ w, Holds "robot" 0 v w → RobotConfig.ofValue? format w = some c.robot)
      ∧ (∀ w, Holds "axes" 1 v w → axesOfValue? format w = some c.axes)
      ∧ ∀ w, Holds "homing" 2 v w → HomingSettings.ofValue? format w = some c.homing := by
  simp only [ofValue?, Option.bind_eq_bind, Option.bind_eq_some_iff] at h
  obtain ⟨known, hknown, robot, hrobot, axes, haxes, homing, hhoming, ⟨⟩⟩ := h
  have hnodup : ["robot", "axes", "homing"].Nodup := by decide
  exact ⟨fun w => decode_of_withDefault hnodup hknown rfl hrobot,
    fun w => decode_of_withDefault hnodup hknown rfl haxes,
    fun w => decode_of_withDefault hnodup hknown rfl hhoming⟩

/-- Every item of a list of axes is read as an axis. -/
theorem Config.ofValue_of_mem {items : List Value} {axes : List (AxisSettings Float)}
    (h : axesOfValue? format (.list items) = some axes) {item : Value} (hitem : item ∈ items) :
    ∃ axis, AxisSettings.ofValue? format item = some axis := by
  replace h : items.mapM (AxisSettings.ofValue? format) = some axes := h
  rw [mapM_eq_some_iff] at h
  induction h with
  | nil => cases hitem
  | @cons v axis items axes hv _ ih =>
    rcases List.mem_cons.mp hitem with rfl | hitem
    · exact ⟨axis, hv⟩
    · exact ih hitem

/-! ### Numbers that are none -/

theorem AxisSettings.isFinite_of_ofValue {axis axis' : AxisSettings Float}
    (h : ofValue? format (axis.toValue.reread number) = some axis') :
    ∀ x ∈ axis.numbers, x.isFinite = true := by
  obtain ⟨-, hsteps, htravel⟩ := holds_of_ofValue h
  have hsteps := Value.isFinite_of_reread (hsteps _ (holds_reread 0 rfl))
  have htravel := Value.isFinite_of_reread (htravel _ (holds_reread 1 rfl))
  simp [numbers, hsteps, htravel]

theorem HomingSettings.isFinite_of_ofValue {settings settings' : HomingSettings Float}
    (h : ofValue? format (settings.toValue.reread number) = some settings') :
    ∀ x ∈ settings.numbers, x.isFinite = true := by
  have hpulloff := Value.isFinite_of_reread (holds_of_ofValue h _ (holds_reread 0 rfl))
  simp [numbers, hpulloff]

theorem RobotConfig.isFinite_of_ofValue {r r' : RobotConfig}
    (h : ofValue? format (r.toValue.reread number) = some r') :
    ∀ x ∈ r.numbers, x.isFinite = true := by
  obtain ⟨hlower, hupper, hlength⟩ := holds_of_ofValue h
  have hlower := Value.isFinite_of_reread (hlower _ (holds_reread 0 rfl))
  have hupper := Value.isFinite_of_reread (hupper _ (holds_reread 1 rfl))
  have hlength := Value.isFinite_of_reread (hlength _ (holds_reread 4 rfl))
  simp [numbers, hlower, hupper, hlength]

/-- **If the document of a configuration is read back at all, all of its numbers are finite.** -/
theorem Config.isFinite_of_ofValue {c c' : Config}
    (h : ofValue? format (c.toValue.reread number) = some c') :
    ∀ x ∈ c.numbers, x.isFinite = true := by
  obtain ⟨hrobot, haxes, hhoming⟩ := holds_of_ofValue h
  have hrobot := RobotConfig.isFinite_of_ofValue (hrobot _ (holds_reread 0 rfl))
  have hhoming := HomingSettings.isFinite_of_ofValue (hhoming _ (holds_reread 2 rfl))
  have haxes : ∀ axis ∈ c.axes, ∀ x ∈ axis.numbers, x.isFinite = true := by
    have hlist := haxes _ (holds_reread 1 rfl)
    replace hlist : axesOfValue? format
      (.list (Value.rereadItems number (c.axes.map AxisSettings.toValue))) = some c'.axes := hlist
    intro axis haxis
    rw [rereadItems_eq, List.map_map] at hlist
    obtain ⟨axis', haxis'⟩ := ofValue_of_mem hlist (List.mem_map_of_mem haxis)
    exact AxisSettings.isFinite_of_ofValue haxis'
  simp only [numbers, List.forall_mem_append, List.forall_mem_flatMap]
  exact ⟨⟨hrobot, haxes⟩, hhoming⟩

end

namespace Config

/-- **A configuration comes back from its document.** Its numbers have to be finite, and the
reader has to get them back from their numerals. Then its document is read as the very same
configuration, and so is any other that says the same: fields with their usual value may be
left out, at every level, and unknown ones may be added. A configuration with a number that is
not finite has no document that could be read. And whatever a text says, if it lists axes and
one of them has no scale, the text is refused. -/
theorem written_config_is_read (number : Numeral → Option Float) :
    (∀ c : Config, (∀ x ∈ c.numbers, x.isFinite = true ∧ ReadsBack number x) →
        ofJsonWith? number c.toJson = some c
          ∧ ∀ v, c.Documents v → ofJsonWith? number v.toJson = some c)
      ∧ (∀ c : Config, (∃ x ∈ c.numbers, ¬ x.isFinite = true) →
        ofJsonWith? number c.toJson = none)
      ∧ ∀ (s : String) (v : Value) (items : List Value) (item : Value),
        Json.parseWith? number s = some v → Holds "axes" 1 v (.list items) → item ∈ items →
          (∀ w, ¬ Holds "steps_per_mm" 0 item w) → ofJsonWith? number s = none := by
  refine ⟨fun c hnumbers => ⟨?_, fun v hv => ?_⟩, ?_, ?_⟩
  · exact ofJson_of_documents hnumbers c.documents_toValue
  · exact ofJson_of_documents hnumbers hv
  · rintro c ⟨x, hx, hinfinite⟩
    rw [ofJsonWith?, toJson, Json.parse_toJson, Option.eq_none_iff_forall_ne_some]
    intro c' hc'
    exact hinfinite (isFinite_of_ofValue hc' x hx)
  · intro s v items item hs hv hitem hscale
    rw [ofJsonWith?, hs, Option.eq_none_iff_forall_ne_some]
    intro c hc
    obtain ⟨axis, haxis⟩ := ofValue_of_mem ((holds_of_ofValue hc).2.1 _ hv) hitem
    obtain ⟨⟨w, hw⟩, -⟩ := AxisSettings.holds_of_ofValue haxis
    exact hscale w hw

/-- An arm bent the other way that homes two of its axes forwards. Its three axes have two
different travels. -/
def sample : Config where
  robot := { usualRobot with elbow := .down }
  axes := [usualAxis, ⟨100, -180.5⟩, usualAxis]
  homing := { usualHoming with positiveAxes := ⟨5⟩ }

/-- A short document of the sample, with a remark. -/
def sampleDocument : Value :=
  .record
    [("remark", .list [.null, .real 0.5]),
      ("homing", .record [("dir_mask", .integer 5), ("speed", .integer 7)]),
      ("axes", .list
        [.record [("steps_per_mm", .real 250)],
          .record [("steps_per_mm", .real 100), ("max_travel", .real (-180.5))],
          .record [("unit", .text "mm"), ("steps_per_mm", .real 250)]]),
      ("robot", .record [("elbow", .text "down")])]

/-- The short document says all that the sample says. -/
theorem documents_sampleDocument : sample.Documents sampleDocument := by
  have hrobot : IsTableOf sample.robot.fields (.record [("elbow", .text "down")]) := by
    refine ⟨_, rfl, by decide, ?_, ?_⟩
    · simp [RobotConfig.fields, sample, Elbow.name]
    · simp [RobotConfig.fields, sample, usualRobot]
  have hhoming : IsTableOf sample.homing.fields
      (.record [("dir_mask", .integer 5), ("speed", .integer 7)]) := by
    refine ⟨_, rfl, by decide, ?_, ?_⟩
    · simp [HomingSettings.fields, sample, AxisMask.toValue]
    · simp [HomingSettings.fields, sample, usualHoming]
  have hfirst : IsTableOf usualAxis.fields (.record [("steps_per_mm", .real 250)]) := by
    refine ⟨_, rfl, by decide, ?_, ?_⟩
    · simp [AxisSettings.fields, usualAxis]
    · simp [AxisSettings.fields, usualAxis]
  have hsecond : IsTableOf (AxisSettings.fields ⟨100, -180.5⟩)
      (.record [("steps_per_mm", .real 100), ("max_travel", .real (-180.5))]) :=
    AxisSettings.isTableOf_toValue ⟨100, -180.5⟩
  have hthird : IsTableOf usualAxis.fields
      (.record [("unit", .text "mm"), ("steps_per_mm", .real 250)]) := by
    refine ⟨_, rfl, by decide, ?_, ?_⟩
    · simp [AxisSettings.fields, usualAxis]
    · simp [AxisSettings.fields, usualAxis]
  have haxes : List.Forall₂ (fun axis => IsTableOf axis.fields) sample.axes _ :=
    .cons hfirst (.cons hsecond (.cons hthird .nil))
  refine ⟨_, rfl, by decide, ?_, ?_⟩
  · simp [fields, hrobot, hhoming, haxes]
  · simp [fields]

instance (number : Numeral → Option Float) (x : Float) : Decidable (ReadsBack number x) :=
  Option.decidableForallMem (p := fun n => number n = some x) _

/-- The reader in use gets the sample back from its document and from the short one. It refuses
a document written with an infinite number, and one with an axis that names
its unit but no scale. -/
theorem written_config_is_read_of_the_sample :
    (∀ x ∈ sample.numbers, x.isFinite = true ∧ ReadsBack Numeral.stepwise? x)
      ∧ ofJson? sample.toJson = some sample ∧ ofJson? sampleDocument.toJson = some sample
      ∧ ofJson? (toJson ⟨usualRobot, usualAxes, ⟨1 / 0, false, .empty, false⟩⟩) = none
      ∧ ofJson? (Value.record [("axes", .list [.record [("unit", .text "mm")]])]).toJson = none := by
  have hnumbers : ∀ x ∈ sample.numbers, x.isFinite = true ∧ ReadsBack Numeral.stepwise? x := by
    decide +kernel
  obtain ⟨hread, hinfinite, hscale⟩ := written_config_is_read Numeral.stepwise?
  obtain ⟨hfull, hshort⟩ := hread sample hnumbers
  refine ⟨hnumbers, hfull, hshort _ documents_sampleDocument, ?_, ?_⟩
  · exact hinfinite _ ⟨1 / 0, by simp [numbers, HomingSettings.numbers], by decide +kernel⟩
  · refine hscale _ _ [.record [("unit", .text "mm")]] _ (Json.parse_toJson _ _)
      List.mem_cons_self List.mem_cons_self fun w hw => ?_
    simp [holds_record] at hw

end Config

end ScaraArm
