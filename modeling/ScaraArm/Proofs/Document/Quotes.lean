import Mathlib
import ScaraArm.Document.Json
import ScaraArm.Document.JsonText

/-!
# Quoted texts are read as they are written

A character is written plainly, behind a backslash, or as the number of a control character.
Either way it is read as one element that spells just this character. So a quoted text is
found again behind its opening quote. A key that spells no text is found as one that does
not.
-/

namespace ScaraArm.Document.Json

open Value (quoteChar quote quoteKey hexEscape)

/-- Whether a character is written as its number. -/
def isNumbered (c : Char) : Bool :=
  decide (c.toNat < 0x20) && !(['\n', '\r', '\t', '\x08', '\x0c'].contains c)

/-- The element that a character is read as. -/
def pieceOf (c : Char) : Piece := if isNumbered c then .unit c.toNat else .char c

theorem hexDigit_digitChar : ∀ d < 16, hexDigit? d.digitChar = some d := by decide

/-- The four digits of a number spell it. -/
theorem hexValue_hexEscape {n : Nat} (h : n < 65536) :
    hexValue? [(n / 4096 % 16).digitChar, (n / 256 % 16).digitChar, (n / 16 % 16).digitChar,
      (n % 16).digitChar] = some n := by
  simp only [hexValue?, List.foldlM_cons, List.foldlM_nil,
    hexDigit_digitChar _ (Nat.mod_lt _ (by omega : 16 > 0)), Option.map_some, Option.bind_eq_bind,
    Option.bind_some, Option.pure_def]
  congr 1
  omega

theorem scanPieces_hexEscape {n : Nat} (h : n < 65536) (rest : List Char) :
    scanPieces (hexEscape n ++ rest)
      = (scanPieces rest).map fun (pieces, rest) => (.unit n :: pieces, rest) := by
  show scanPieces ('\\' :: 'u' :: _ :: _ :: _ :: _ :: rest) = _
  rw [scanPieces, hexValue_hexEscape h]
  cases scanPieces rest <;> rfl

theorem scanPieces_letter {c d : Char} (h : letterEscape? c = some d) (rest : List Char) :
    scanPieces ('\\' :: c :: rest)
      = (scanPieces rest).map fun (pieces, rest) => (.char d :: pieces, rest) := by
  have hu : c ≠ 'u' := by
    rintro rfl
    cases h
  rw [scanPieces, h]
  · cases scanPieces rest <;> rfl
  · rintro a b d e rest' hc -
    exact hu hc

theorem scanPieces_plain {c : Char} (hquote : c ≠ '"') (hslash : c ≠ '\\')
    (h : ¬ c.toNat < 0x20) (rest : List Char) :
    scanPieces (c :: rest)
      = (scanPieces rest).map fun (pieces, rest) => (.char c :: pieces, rest) := by
  rw [scanPieces, if_neg h]
  · cases scanPieces rest <;> rfl
  · exact hquote
  · exact fun _ _ _ _ _ hc _ => hslash hc
  · exact fun _ _ hc _ => hslash hc

/-- **A character is read as the element it is written as.** -/
theorem scanPieces_quoteChar (c : Char) (rest : List Char) :
    scanPieces (quoteChar c ++ rest)
      = (scanPieces rest).map fun (pieces, rest) => (pieceOf c :: pieces, rest) := by
  unfold quoteChar
  split
  · exact scanPieces_letter rfl rest
  · exact scanPieces_letter rfl rest
  · exact scanPieces_letter rfl rest
  · exact scanPieces_letter rfl rest
  · exact scanPieces_letter rfl rest
  · exact scanPieces_letter rfl rest
  · exact scanPieces_letter rfl rest
  · -- a plain character, or a control character that no letter stands for
    rename_i hquote hslash hn hr ht hb hf
    have hnumbered : isNumbered c = decide (c.toNat < 0x20) := by
      simp only [isNumbered, List.contains_cons, List.contains_nil, Bool.or_false]
      simp [show c ≠ '\n' from hn, show c ≠ '\r' from hr, show c ≠ '\t' from ht,
        show c ≠ '\x08' from hb, show c ≠ '\x0c' from hf]
    unfold pieceOf
    rw [hnumbered]
    by_cases hlow : c.toNat < 0x20
    · rw [if_pos hlow, if_pos (decide_eq_true hlow)]
      exact scanPieces_hexEscape (by omega) rest
    · rw [if_neg hlow, if_neg (by simpa using hlow)]
      exact scanPieces_plain hquote hslash hlow rest

theorem scanPieces_flatMap (cs rest : List Char) :
    scanPieces (cs.flatMap quoteChar ++ '"' :: rest) = some (cs.map pieceOf, rest) := by
  induction cs with
  | nil => rfl
  | cons c cs ih =>
    rw [List.flatMap_cons, List.append_assoc, scanPieces_quoteChar, ih]
    rfl

/-- A number below the surrogates is the number of a character. -/
theorem spell_unit {n : Nat} (h : n < 0xD800) (pieces : List Piece) :
    spell? (.unit n :: pieces) = (spell? pieces).map (Char.ofNat n :: ·) := by
  cases pieces with
  | nil =>
    show (if 0xD800 ≤ n ∧ n < 0xE000 then none else (spell? []).map (Char.ofNat n :: ·)) = _
    rw [if_neg (by omega)]
  | cons piece pieces =>
    cases piece with
    | char d =>
      show (if 0xD800 ≤ n ∧ n < 0xE000 then none
        else (spell? (.char d :: pieces)).map (Char.ofNat n :: ·)) = _
      rw [if_neg (by omega)]
    | unit b => conv_lhs => rw [spell?, if_neg (by omega), if_neg (by omega)]

theorem spell_pieceOf (c : Char) (pieces : List Piece) :
    spell? (pieceOf c :: pieces) = (spell? pieces).map (c :: ·) := by
  unfold pieceOf
  split_ifs with h
  · have hlow : c.toNat < 0x20 := by
      simp only [isNumbered, Bool.and_eq_true, decide_eq_true_eq] at h
      exact h.1
    rw [spell_unit (by omega), Char.ofNat_toNat]
  · rw [spell?]

theorem spell_map_pieceOf (cs : List Char) : spell? (cs.map pieceOf) = some cs := by
  induction cs with
  | nil => rfl
  | cons c cs ih =>
    rw [List.map_cons, spell_pieceOf, ih]
    rfl

/-- **A key is found again behind its opening quote.** -/
theorem scanQuoted_quoteKey (key : Key) (rest : List Char) :
    ∃ cs, quoteKey key ++ rest = '"' :: cs ∧ scanQuoted cs = some (key, rest) := by
  cases key with
  | some s =>
    refine ⟨s.toList.flatMap quoteChar ++ '"' :: rest, ?_, ?_⟩
    · simp [quoteKey, quote]
    · rw [scanQuoted, scanPieces_flatMap]
      simp [spell_map_pieceOf]
  | none =>
    refine ⟨hexEscape 0xD800 ++ '"' :: rest, ?_, ?_⟩
    · simp [quoteKey]
    · rw [scanQuoted, scanPieces_hexEscape (by omega)]
      rfl

end ScaraArm.Document.Json
