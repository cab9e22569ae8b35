import Mathlib
import ScaraArm.Config.Load
import ScaraArm.Proofs.Config.Checked
import ScaraArm.Proofs.Document.Overlap

/-!
# Finding out the format of a file

A file whose name does not tell its format is read as TOML, and as JSON if that fails. So a TOML
file means the same under any such name. A JSON file does if it is not TOML as well, and a JSON
text that makes a configuration hardly ever is: it leads to a number, and then it is TOML only as
one number in two pairs of brackets.

That text does change its meaning. In JSON it gives the length of the lower link; in TOML it is the
header of a list of tables that no configuration has, and everything is as usual.
-/

namespace ScaraArm

open Document

theorem Document.hasFields_of_fields? {format : Config.Format} {names : List String} {v : Value}
    {known : List (String × Value)} (h : fields? format names v = some known) : v.HasFields := by
  cases v with
  | instant => trivial
  | list items => trivial
  | table entries => trivial
  | _ => cases h

theorem RobotConfig.hasFields_of_ofValue? {format : Config.Format} {v : Value} {r : RobotConfig}
    (h : ofValue? format v = some r) : v.HasFields := by
  obtain ⟨known, hknown, -⟩ := Option.bind_eq_some_iff.mp h
  exact hasFields_of_fields? hknown

namespace Config

variable {format : Format} {v : Value} {c : Config}

/-- A document that makes a configuration leads to a number. -/
theorem leadsToNumber_of_ofValue? (h : ofValue? format v = some c) : v.LeadsToNumber := by
  obtain ⟨hrobot, -⟩ := holds_of_ofValue h
  refine ⟨?_, ?_, ?_⟩
  · obtain ⟨known, hknown, -⟩ := Option.bind_eq_some_iff.mp h
    exact hasFields_of_fields? hknown
  · rintro first more rfl
    exact RobotConfig.hasFields_of_ofValue? (hrobot first rfl)
  · rintro w inner more rfl
    obtain ⟨hlower, -⟩ := RobotConfig.holds_of_ofValue (hrobot _ rfl)
    rw [hlower w rfl]
    rfl

/-- A table of nothing but an unknown key is as good as an empty one. -/
theorem ofValue?_of_unknown {key : String} (h : key ∉ ["robot", "axes", "homing"])
    (hv : v.isReadable = true) : ofValue? format (.table [(some key, v)]) = some usual := by
  have hfields : ∀ {names : List String}, key ∉ names →
      fields? format names (.record [(key, v)]) = some [] := by
    intro names h
    rw [fields_record]
    simp [h, hv]
  unfold ofValue?
  show (fields? format _ (.record [(key, v)])).bind _ = _
  rw [hfields h]
  rfl

/-- No field has a name that begins like a number. -/
theorem not_mem_fields {first : Char} (h : first.isDigit = true ∨ first = '-') (tail : List Char) :
    String.ofList (first :: tail) ∉ ["robot", "axes", "homing"] := by
  intro hmem
  have hletter : first = 'r' ∨ first = 'a' ∨ first = 'h' := by
    have hhead : ∀ {name : String}, String.ofList (first :: tail) = name →
        name.toList.head? = some first := by
      rintro _ rfl
      rw [String.toList_ofList]
      rfl
    simp only [List.mem_cons, List.not_mem_nil, or_false] at hmem
    rcases hmem with heq | heq | heq
    · exact Or.inl (Option.some.inj (hhead heq)).symm
    · exact Or.inr (Or.inl (Option.some.inj (hhead heq)).symm)
    · exact Or.inr (Or.inr (Option.some.inj (hhead heq)).symm)
  rcases hletter with rfl | rfl | rfl <;> revert h <;> decide

/-- The usual configuration with another lower link. -/
def usualBut (lower : Float) : Config := { usual with robot := { usualRobot with lower } }

theorem ofValue?_of_lower {x : Float} (h : v.float? = some x) :
    ofValue? .json (.list [.list [v]]) = some (usualBut x) := by
  unfold ofValue? RobotConfig.ofValue?
  simp [fields?, withDefault, h]
  rfl

/-! ## Texts -/

variable {s : String}

/-- **TOML finds the usual configuration in a number in two pairs of brackets.** -/
theorem ofToml?_of_bracketed {n : Numeral} (h : BracketedNumber n s.toList) :
    ofToml? s = some usual := by
  obtain ⟨c, tail, v, hread, hc, hreadable⟩ := Toml.read?_of_bracketed h
  unfold ofToml? Toml.parse?
  rw [hread, Option.bind_eq_bind, Option.bind_some]
  exact ofValue?_of_unknown (not_mem_fields hc tail) hreadable

/-- **A text that makes a configuration in both notations** is a number in two pairs of brackets. -/
theorem bracketed_of_ofJson? {t : Config} (hjson : ofJson? s = some c)
    (htoml : ofToml? s = some t) :
    ∃ n x, BracketedNumber n s.toList ∧ (Json.ofNumeral Numeral.stepwise? n).float? = some x
      ∧ c = usualBut x := by
  obtain ⟨v, hv, hc⟩ := Option.bind_eq_some_iff.mp hjson
  obtain ⟨w, hw, -⟩ := Option.bind_eq_some_iff.mp htoml
  have hleads := leadsToNumber_of_ofValue? hc
  obtain ⟨n, hn, rfl⟩ := bracketed_of_read? hv hleads hw
  obtain ⟨x, hx⟩ := Option.isSome_iff_exists.mp (hleads.number rfl)
  exact ⟨n, x, hn, hx, Option.some.inj (hc.symm.trans (ofValue?_of_lower hx))⟩

/-! ## Files -/

variable {files : String → Option ByteArray} {path named : String}

theorem load_of_text (h : (files path >>= String.fromUTF8?) = some s) :
    load files path = parseFile path s := by
  unfold load
  rw [h]

theorem load_of_format {format : Format} (h : (files path >>= String.fromUTF8?) = some s)
    (hpath : formatOfPath? path = some format) : load files path = parse format s := by
  rw [load_of_text h]
  unfold parseFile
  rw [hpath]

/-- A file of unknown format is read as TOML if it is that. -/
theorem load_of_toml (h : (files path >>= String.fromUTF8?) = some s)
    (hpath : formatOfPath? path = none) (hs : ofToml? s = some c) : load files path = .ok c := by
  rw [load_of_text h]
  unfold parseFile
  rw [hpath, parse_toml_eq_ok_iff.mpr hs]

/-- A file of unknown format that is no TOML is read as JSON. -/
theorem load_of_json (h : (files path >>= String.fromUTF8?) = some s)
    (hpath : formatOfPath? path = none) (htoml : ofToml? s = none) :
    load files path = parse .json s := by
  rw [load_of_text h]
  unfold parseFile parse
  rw [hpath, htoml]

/--
**What a file means without an extension that tells its format.**

It means what it means as TOML, if it is TOML. If it is JSON it means what it means as JSON, unless
it is one number in two pairs of brackets: then the number was the lower link of the usual
configuration in JSON, and now it is passed over. Every such text is read as the usual
configuration.
-/
theorem load_detected (hpath : formatOfPath? path = none) (hsame : files named = files path)
    (htext : (files path >>= String.fromUTF8?) = some s) :
    (formatOfPath? named = some .toml → ∀ c, load files named = .ok c → load files path = .ok c)
      ∧ (formatOfPath? named = some .json → ∀ c, load files named = .ok c →
        load files path = .ok c
          ∨ ∃ n x, BracketedNumber n s.toList
            ∧ (Json.ofNumeral Numeral.stepwise? n).float? = some x ∧ c = usualBut x
            ∧ load files path = .ok usual)
      ∧ ∀ n, BracketedNumber n s.toList → load files path = .ok usual := by
  have hnamed : (files named >>= String.fromUTF8?) = some s := by rw [hsame, htext]
  refine ⟨fun hformat c hc => ?_, fun hformat c hc => ?_, fun n hn => ?_⟩
  · rw [load_of_format hnamed hformat, parse_toml_eq_ok_iff] at hc
    exact load_of_toml htext hpath hc
  · rw [load_of_format hnamed hformat] at hc
    cases htoml : ofToml? s with
    | none =>
      left
      rw [load_of_json htext hpath htoml]
      exact hc
    | some t =>
      right
      obtain ⟨n, x, hn, hx, heq⟩ := bracketed_of_ofJson? (parse_json_eq_ok_iff.mp hc) htoml
      exact ⟨n, x, hn, hx, heq, load_of_toml htext hpath (ofToml?_of_bracketed hn)⟩
  · exact load_of_toml htext hpath (ofToml?_of_bracketed hn)

/-- The length of a link is passed over when nothing tells that it is JSON. -/
theorem load_of_the_bracketed_length :
    let files : String → Option ByteArray := fun _ => some "[[300.0]]".toUTF8
    formatOfPath? "arm.json" = some .json ∧ formatOfPath? "arm.conf" = none
      ∧ load files "arm.json" = .ok (usualBut 300) ∧ load files "arm.conf" = .ok usual
      ∧ usualBut 300 ≠ usual := by
  decide +kernel

/-- Two lengths in brackets are JSON only, and mean the same under any name. A single one is read
as the usual configuration. -/
theorem load_of_bracketed_lengths :
    let both : String → Option ByteArray := fun _ => some "[[400.0, 300.0]]".toUTF8
    let single : String → Option ByteArray := fun _ => some "[[300.0]]".toUTF8
    let c : Config := { usual with robot := { usualRobot with lower := 400, upper := 300 } }
    formatOfPath? "arm.conf" = none ∧ load both "arm.json" = .ok c ∧ load both "arm.conf" = .ok c
      ∧ (∃ n, BracketedNumber n "[[300.0]]".toList) ∧ load single "arm.conf" = .ok usual := by
  intro both single c
  have hpath : formatOfPath? "arm.conf" = none := by decide +kernel
  have hnamed : formatOfPath? "arm.json" = some .json := by decide +kernel
  have hboth : (both "arm.conf" >>= String.fromUTF8?) = some "[[400.0, 300.0]]" := by decide +kernel
  have hsingle : (single "arm.conf" >>= String.fromUTF8?) = some "[[300.0]]" := by decide +kernel
  have hload : load both "arm.json" = .ok c := by decide +kernel
  have hsame : both "arm.json" = both "arm.conf" := rfl
  have hsame' : single "arm.json" = single "arm.conf" := rfl
  have hbracketed : BracketedNumber ⟨none, ['3', '0', '0'], some ['0'], none⟩ "[[300.0]]".toList :=
    @BracketedNumber.intro _ [] [] ['3', '0', '0', '.', '0'] [] [] .nil nofun rfl rfl (by decide)
      nofun .nil
  obtain ⟨-, hjson, -⟩ := load_detected hpath hsame hboth
  obtain ⟨-, -, husual⟩ := load_detected hpath hsame' hsingle
  refine ⟨hpath, hload, (hjson hnamed c hload).resolve_right ?_, ⟨_, hbracketed⟩,
    husual _ hbracketed⟩
  rintro ⟨n, x, -, -, hc, -⟩
  have hupper : (300 : Float) = 450 := congrArg (fun c : Config => c.robot.upper) hc
  revert hupper
  decide +kernel

end Config

end ScaraArm
