import Mathlib
import ScaraArm.Document.Json
import ScaraArm.Document.JsonText
import ScaraArm.Proofs.Decimal.Shortest

/-!
# Numerals are read as they are written

A numeral whose parts consist of digits is found again at the head of its own characters,
as long as what follows cannot be taken for more of it. The numerals that JSON is written
with are of that kind: their digits come from whole numbers, no zero stands idle in front of
them, and there is a digit behind every point.

The other way round, a numeral that was scanned and looks like a JSON number consists of the
characters that the scan took. Only the letter in front of its power is not kept.
-/

namespace ScaraArm.Numeral

/-! ## Scanning -/

/-- What follows a numeral and is no part of it. -/
def Ends (rest : List Char) : Prop :=
  ∀ c ∈ rest.head?, c.isDigit = false ∧ c ≠ '.' ∧ c ≠ 'e' ∧ c ≠ 'E'

/-- The parts of a numeral consist of digits, and there are some in front of the point and in
a power. -/
structure Proper (n : Numeral) : Prop where
  sign : ∀ c ∈ n.sign, c = '+' ∨ c = '-'
  whole : ∀ c ∈ n.whole, c.isDigit = true
  whole_ne : n.whole ≠ []
  fraction : ∀ digits ∈ n.fraction, ∀ c ∈ digits, c.isDigit = true
  powerSign : ∀ p ∈ n.power, ∀ c ∈ p.1, c = '+' ∨ c = '-'
  power : ∀ p ∈ n.power, ∀ c ∈ p.2, c.isDigit = true
  power_ne : ∀ p ∈ n.power, p.2 ≠ []

/-- A run of characters of one kind ends in front of a character of another kind. -/
theorem span_append {kind : Char → Bool} {run rest : List Char} (h : ∀ c ∈ run, kind c = true)
    (hrest : ∀ c ∈ rest.head?, kind c = false) :
    (run ++ rest).takeWhile kind = run ∧ (run ++ rest).dropWhile kind = rest := by
  have hspan : rest.takeWhile kind = [] ∧ rest.dropWhile kind = rest := by
    cases rest with
    | nil => exact ⟨rfl, rfl⟩
    | cons c rest =>
      have hc := hrest c rfl
      rw [List.takeWhile_cons_of_neg (by simp [hc]), List.dropWhile_cons_of_neg (by simp [hc])]
      exact ⟨rfl, rfl⟩
  rw [List.takeWhile_append_of_pos h, List.dropWhile_append_of_pos h, hspan.1, hspan.2,
    List.append_nil]
  exact ⟨rfl, rfl⟩

theorem scanDigits_append {digits rest : List Char} (h : ∀ c ∈ digits, c.isDigit = true)
    (hrest : ∀ c ∈ rest.head?, c.isDigit = false) :
    scanDigits (digits ++ rest) = (digits, rest) := by
  obtain ⟨htake, hdrop⟩ := span_append h hrest
  rw [scanDigits, htake, hdrop]

theorem scanSign_append {sign : Option Char} {digits rest : List Char}
    (hsign : ∀ c ∈ sign, c = '+' ∨ c = '-') (h : ∀ c ∈ digits, c.isDigit = true)
    (hne : digits ≠ []) :
    scanSign (sign.toList ++ (digits ++ rest)) = (sign, digits ++ rest) := by
  cases sign with
  | some c => rcases hsign c rfl with rfl | rfl <;> rfl
  | none =>
    obtain ⟨c, digits, rfl⟩ := List.exists_cons_of_ne_nil hne
    have hc : c.isDigit = true := h c List.mem_cons_self
    have hplus : c ≠ '+' := by rintro rfl; exact absurd hc (by decide)
    have hminus : c ≠ '-' := by rintro rfl; exact absurd hc (by decide)
    show scanSign (c :: (digits ++ rest)) = _
    unfold scanSign
    split <;> simp_all

/-- The characters of a power that the letter announces. -/
def powerChars (letter : Char) (n : Numeral) : List Char :=
  match n.power with
  | none => []
  | some (sign, digits) => letter :: (sign.toList ++ digits)

/-- The characters of a point and what is behind it. -/
def fractionChars (n : Numeral) : List Char :=
  match n.fraction with
  | none => []
  | some digits => '.' :: digits

theorem scanPower_append {n : Numeral} (h : n.Proper) {letter : Char}
    (hletter : letter = 'e' ∨ letter = 'E') {rest : List Char} (hrest : Ends rest) :
    scanPower (n.powerChars letter ++ rest) = (n.power, rest) := by
  unfold powerChars
  cases hp : n.power with
  | none =>
    show scanPower rest = (none, rest)
    unfold scanPower
    split
    · exact absurd rfl (hrest 'e' rfl).2.2.1
    · exact absurd rfl (hrest 'E' rfl).2.2.2
    · rfl
  | some p =>
    obtain ⟨sign, digits⟩ := p
    have hbody : scanPower (letter :: (sign.toList ++ digits) ++ rest)
        = scanPowerBody ((sign.toList ++ digits) ++ rest) := by
      rcases hletter with rfl | rfl <;> rfl
    rw [hbody]
    unfold scanPowerBody
    rw [List.append_assoc, scanSign_append (h.powerSign _ hp) (h.power _ hp) (h.power_ne _ hp)]
    dsimp only
    rw [scanDigits_append (h.power _ hp) fun c hc => (hrest c hc).1]

theorem power_head {n : Numeral} {letter : Char} (hletter : letter = 'e' ∨ letter = 'E')
    {rest : List Char} (hrest : Ends rest) :
    ∀ c ∈ (n.powerChars letter ++ rest).head?, c.isDigit = false ∧ c ≠ '.' := by
  unfold powerChars
  intro c hc
  cases hp : n.power with
  | none =>
    rw [hp] at hc
    exact ⟨(hrest c hc).1, (hrest c hc).2.1⟩
  | some p =>
    rw [hp] at hc
    obtain rfl : letter = c := Option.some.inj hc
    rcases hletter with rfl | rfl <;> decide

theorem scanFraction_append {n : Numeral} (h : n.Proper) {rest : List Char}
    (hrest : ∀ c ∈ rest.head?, c.isDigit = false ∧ c ≠ '.') :
    scanFraction (n.fractionChars ++ rest) = (n.fraction, rest) := by
  unfold fractionChars
  cases hf : n.fraction with
  | none =>
    show scanFraction rest = (none, rest)
    unfold scanFraction
    split
    · exact absurd rfl (hrest '.' rfl).2
    · rfl
  | some digits =>
    show (some (scanDigits (digits ++ rest)).1, (scanDigits (digits ++ rest)).2) = _
    rw [scanDigits_append (h.fraction _ hf) fun c hc => (hrest c hc).1]

theorem fraction_head {n : Numeral} {rest : List Char}
    (hrest : ∀ c ∈ rest.head?, c.isDigit = false) :
    ∀ c ∈ (n.fractionChars ++ rest).head?, c.isDigit = false := by
  unfold fractionChars
  intro c hc
  cases hf : n.fraction with
  | none =>
    rw [hf] at hc
    exact hrest c hc
  | some digits =>
    rw [hf] at hc
    obtain rfl : '.' = c := Option.some.inj hc
    decide

/-- The characters of a numeral, with the letter in front of its power. -/
def written (letter : Char) (n : Numeral) : List Char :=
  n.sign.toList ++ (n.whole ++ (n.fractionChars ++ n.powerChars letter))

theorem render_eq (n : Numeral) : n.render = n.written 'e' := by
  show n.sign.toList ++ n.whole ++ n.fractionChars ++ n.powerChars 'e' = _
  simp only [written, List.append_assoc]

/-- **A numeral is found again at the head of its characters.** -/
theorem scan_written {n : Numeral} (h : n.Proper) {letter : Char}
    (hletter : letter = 'e' ∨ letter = 'E') {rest : List Char} (hrest : Ends rest) :
    scan (n.written letter ++ rest) = (n, rest) := by
  have hpower := power_head (n := n) hletter hrest
  have hfraction := fraction_head (n := n) fun c hc => (hpower c hc).1
  unfold scan written
  simp only [List.append_assoc]
  rw [scanSign_append h.sign h.whole h.whole_ne]
  dsimp only
  rw [scanDigits_append h.whole hfraction]
  dsimp only
  rw [scanFraction_append h hpower]
  dsimp only
  rw [scanPower_append h hletter hrest]

theorem scan_render {n : Numeral} (h : n.Proper) {rest : List Char} (hrest : Ends rest) :
    scan (n.render ++ rest) = (n, rest) := by
  rw [render_eq]
  exact scan_written h (Or.inl rfl) hrest

/-! ## What was scanned -/

theorem scanSign_eq {cs rest : List Char} {sign : Option Char} (h : scanSign cs = (sign, rest)) :
    cs = sign.toList ++ rest ∧ ∀ c ∈ sign, c = '+' ∨ c = '-' := by
  unfold scanSign at h
  split at h
  · cases h
    exact ⟨rfl, by simp⟩
  · cases h
    exact ⟨rfl, by simp⟩
  · cases h
    exact ⟨rfl, nofun⟩

theorem scanDigits_eq {cs digits rest : List Char} (h : scanDigits cs = (digits, rest)) :
    cs = digits ++ rest ∧ ∀ c ∈ digits, c.isDigit = true := by
  cases h
  exact ⟨List.takeWhile_append_dropWhile.symm, fun c hc => List.mem_takeWhile_imp hc⟩

theorem scanFraction_eq {cs rest : List Char} {n : Numeral}
    (h : scanFraction cs = (n.fraction, rest)) :
    cs = n.fractionChars ++ rest ∧ ∀ digits ∈ n.fraction, ∀ c ∈ digits, c.isDigit = true := by
  unfold scanFraction at h
  unfold fractionChars
  split at h
  · rename_i tail
    rcases hdigits : scanDigits tail with ⟨digits, tail'⟩
    rw [hdigits] at h
    obtain ⟨htail, hdigit⟩ := scanDigits_eq hdigits
    obtain ⟨hfraction, rfl⟩ := Prod.mk.inj h
    rw [← hfraction, htail]
    refine ⟨rfl, ?_⟩
    rintro _ ⟨⟩
    exact hdigit
  · obtain ⟨hfraction, rfl⟩ := Prod.mk.inj h
    rw [← hfraction]
    exact ⟨rfl, nofun⟩

theorem scanPowerBody_eq {cs rest : List Char} {power : Option (Option Char × List Char)}
    (h : scanPowerBody cs = (power, rest)) :
    ∃ sign digits, power = some (sign, digits) ∧ cs = sign.toList ++ digits ++ rest
      ∧ (∀ c ∈ sign, c = '+' ∨ c = '-') ∧ ∀ c ∈ digits, c.isDigit = true := by
  rcases hsign : scanSign cs with ⟨sign, cs'⟩
  rcases hdigits : scanDigits cs' with ⟨digits, rest'⟩
  unfold scanPowerBody at h
  rw [hsign] at h
  dsimp only at h
  rw [hdigits] at h
  obtain ⟨rfl, rfl⟩ := Prod.mk.inj h
  obtain ⟨rfl, hplus⟩ := scanSign_eq hsign
  obtain ⟨rfl, hdigit⟩ := scanDigits_eq hdigits
  exact ⟨sign, digits, rfl, (List.append_assoc _ _ _).symm, hplus, hdigit⟩

theorem scanPower_eq {cs rest : List Char} {n : Numeral} (h : scanPower cs = (n.power, rest)) :
    (∃ letter, (letter = 'e' ∨ letter = 'E') ∧ cs = n.powerChars letter ++ rest)
      ∧ ∀ p ∈ n.power, (∀ c ∈ p.1, c = '+' ∨ c = '-') ∧ ∀ c ∈ p.2, c.isDigit = true := by
  have hbody : ∀ {letter tail}, letter = 'e' ∨ letter = 'E' →
      scanPowerBody tail = (n.power, rest) →
      (∃ letter', (letter' = 'e' ∨ letter' = 'E') ∧ letter :: tail = n.powerChars letter' ++ rest)
        ∧ ∀ p ∈ n.power, (∀ c ∈ p.1, c = '+' ∨ c = '-') ∧ ∀ c ∈ p.2, c.isDigit = true := by
    intro letter tail hletter h
    obtain ⟨sign, digits, hpower, rfl, hsign, hdigits⟩ := scanPowerBody_eq h
    unfold powerChars
    rw [hpower]
    refine ⟨⟨letter, hletter, rfl⟩, ?_⟩
    rintro _ ⟨⟩
    exact ⟨hsign, hdigits⟩
  unfold scanPower at h
  split at h
  · exact hbody (Or.inl rfl) h
  · exact hbody (Or.inr rfl) h
  · obtain ⟨hpower, rfl⟩ := Prod.mk.inj h
    unfold powerChars
    rw [← hpower]
    exact ⟨⟨'e', Or.inl rfl, rfl⟩, nofun⟩

/-- **A numeral in the look of a JSON number consists of the characters it was scanned from.** -/
theorem eq_of_scan {cs rest : List Char} {n : Numeral} (h : scan cs = (n, rest))
    (hn : Document.Json.isNumber n = true) :
    n.Proper ∧ ∃ letter, (letter = 'e' ∨ letter = 'E') ∧ cs = n.written letter ++ rest := by
  simp only [Document.Json.isNumber, Bool.and_eq_true] at hn
  obtain ⟨⟨⟨-, hwhole_ne⟩, -⟩, hpower_ne⟩ := hn
  rcases hsign : scanSign cs with ⟨sign, cs₁⟩
  rcases hwhole : scanDigits cs₁ with ⟨whole, cs₂⟩
  rcases hfraction : scanFraction cs₂ with ⟨fraction, cs₃⟩
  rcases hpower : scanPower cs₃ with ⟨power, cs₄⟩
  have hscan : scan cs = (⟨sign, whole, fraction, power⟩, cs₄) := by
    unfold scan
    rw [hsign]
    dsimp only
    rw [hwhole]
    dsimp only
    rw [hfraction]
    dsimp only
    rw [hpower]
  obtain ⟨rfl, rfl⟩ := Prod.mk.inj (hscan.symm.trans h)
  obtain ⟨rfl, hplus⟩ := scanSign_eq hsign
  obtain ⟨rfl, hdigits⟩ := scanDigits_eq hwhole
  obtain ⟨rfl, hbehind⟩ := scanFraction_eq (n := ⟨sign, whole, fraction, power⟩) hfraction
  obtain ⟨⟨letter, hletter, rfl⟩, hdigits'⟩ :=
    scanPower_eq (n := ⟨sign, whole, fraction, power⟩) hpower
  refine ⟨⟨hplus, hdigits, ?_, hbehind, fun p hp => (hdigits' p hp).1,
    fun p hp => (hdigits' p hp).2, ?_⟩, letter, hletter, ?_⟩
  · rintro rfl
    cases hwhole_ne
  · rintro ⟨powerSign, digits⟩ hp rfl
    cases hp
    cases hpower_ne
  · simp only [written, List.append_assoc]

/-! ## Digits of whole numbers -/

theorem head_toDigits_ne {n : Nat} (h : n ≠ 0) : (Nat.toDigits 10 n).head? ≠ some '0' := by
  induction n using Nat.strongRecOn with
  | ind n ih =>
    by_cases hlt : n < 10
    · rw [Nat.toDigits_of_lt_base hlt]
      interval_cases n <;> first | exact absurd rfl h | decide
    · rw [Nat.toDigits_of_base_le (by omega) (by omega),
        List.head?_append_of_ne_nil _ Nat.toDigits_ne_nil]
      exact ih (n / 10) (by omega) (by omega)

theorem isDigit_toDigits {n : Nat} : ∀ c ∈ Nat.toDigits 10 n, c.isDigit = true :=
  fun _ hc => Nat.isDigit_of_mem_toDigits (by omega) le_rfl hc

theorem signOf_sign (negative : Bool) : ∀ c ∈ signOf negative, c = '+' ∨ c = '-' := by
  cases negative
  · exact nofun
  · rintro c ⟨⟩
    exact Or.inr rfl

theorem signOf_ne (negative : Bool) : signOf negative ≠ some '+' := by
  cases negative <;> decide

/-! ## The numerals of JSON -/

/-- A JSON number begins with a digit or with a minus. -/
theorem head_of_isNumber {n : Numeral} (h : n.Proper) (hn : Document.Json.isNumber n = true) :
    ∃ c cs, n.sign.toList ++ n.whole = c :: cs ∧ (c.isDigit = true ∨ c = '-') := by
  cases hs : n.sign with
  | none =>
    obtain ⟨c, digits, hc⟩ := List.exists_cons_of_ne_nil h.whole_ne
    exact ⟨c, digits, hc, Or.inl (h.whole c (hc ▸ List.mem_cons_self))⟩
  | some c =>
    refine ⟨c, n.whole, rfl, Or.inr ?_⟩
    rcases h.sign c hs with rfl | rfl
    · simp [Document.Json.isNumber, hs] at hn
    · rfl

/-- At least one character, and nothing but digits. -/
def Digits (cs : List Char) : Prop := cs ≠ [] ∧ ∀ c ∈ cs, c.isDigit = true

theorem digits_toDigits (n : Nat) : Digits (Nat.toDigits 10 n) :=
  ⟨Nat.toDigits_ne_nil, isDigit_toDigits⟩

theorem digits_zero : Digits ['0'] := ⟨nofun, fun c hc => by rw [List.mem_singleton.mp hc]; rfl⟩

theorem Digits.append {cs ds : List Char} (hc : Digits cs) (hd : ∀ c ∈ ds, c.isDigit = true) :
    Digits (cs ++ ds) := by
  refine ⟨List.append_ne_nil_of_left_ne_nil hc.1 ds, fun c h => ?_⟩
  rcases List.mem_append.mp h with h | h
  · exact hc.2 c h
  · exact hd c h

theorem isDigit_zeros (n : Nat) : ∀ c ∈ List.replicate n '0', c.isDigit = true := by
  intro c hc
  rw [List.eq_of_mem_replicate hc]
  rfl

/-- Digits without an idle zero in front. -/
def Tidy (cs : List Char) : Prop := Digits cs ∧ (cs = ['0'] ∨ cs.head? ≠ some '0')

theorem wholeIsTidy_of_tidy {n : Numeral} (h : Tidy n.whole) : n.wholeIsTidy = true := by
  obtain ⟨c, digits, hc⟩ := List.exists_cons_of_ne_nil h.1.1
  have hhead := h.2
  unfold wholeIsTidy
  rw [hc] at hhead ⊢
  split
  · simp_all
  · rfl
  · simp_all
    tauto

/-- A numeral that JSON writes a double with: proper, in the look of a JSON number, and told
from an integer by a point or a power. -/
structure IsReal (n : Numeral) : Prop where
  proper : n.Proper
  isNumber : Document.Json.isNumber n = true
  isWhole : n.isWhole = false

/-- A numeral with a tidy whole part, and with digits where it has a point or a power, has the
look of a JSON number. -/
theorem isNumber_of_parts (negative : Bool) {whole : List Char} {fraction : Option (List Char)}
    {power : Option (Option Char × List Char)} (hwhole : Tidy whole)
    (hfraction : ∀ digits ∈ fraction, Digits digits)
    (hsign : ∀ p ∈ power, ∀ c ∈ p.1, c = '+' ∨ c = '-') (hpower : ∀ p ∈ power, Digits p.2) :
    Proper ⟨signOf negative, whole, fraction, power⟩
      ∧ Document.Json.isNumber ⟨signOf negative, whole, fraction, power⟩ = true := by
  refine ⟨{ sign := signOf_sign negative
            whole := hwhole.1.2
            whole_ne := hwhole.1.1
            fraction := fun digits h => (hfraction digits h).2
            powerSign := hsign
            power := fun p h => (hpower p h).2
            power_ne := fun p h => (hpower p h).1 }, ?_⟩
  have hplus := signOf_ne negative
  have hfrac : fraction ≠ some [] := fun h => (hfraction [] h).1 rfl
  have htidy : powerIsTidy ⟨signOf negative, whole, fraction, power⟩ = true := by
    unfold powerIsTidy
    split
    · rename_i h
      exact absurd rfl (hpower _ h).1
    · rfl
  simp [Document.Json.isNumber, wholeIsTidy_of_tidy (n := ⟨_, whole, _, _⟩) hwhole,
    fractionIsTidy, hplus, hfrac, htidy]

/-- With a point or a power it is no integer. -/
theorem isReal_of_parts (negative : Bool) {whole : List Char} {fraction : Option (List Char)}
    {power : Option (Option Char × List Char)} (hwhole : Tidy whole)
    (hfraction : ∀ digits ∈ fraction, Digits digits)
    (hsign : ∀ p ∈ power, ∀ c ∈ p.1, c = '+' ∨ c = '-') (hpower : ∀ p ∈ power, Digits p.2)
    (hreal : fraction.isNone = true → power.isNone = false) :
    IsReal ⟨signOf negative, whole, fraction, power⟩ := by
  obtain ⟨hproper, hnumber⟩ := isNumber_of_parts negative hwhole hfraction hsign hpower
  refine ⟨hproper, hnumber, ?_⟩
  unfold isWhole
  rw [Bool.and_eq_false_imp]
  exact hreal

theorem head_append {cs : List Char} (h : cs ≠ []) (ds : List Char) :
    (cs ++ ds).head? = cs.head? := List.head?_append_of_ne_nil cs h

theorem tidy_toDigits (n : Nat) : Tidy (Nat.toDigits 10 n) := by
  refine ⟨digits_toDigits n, ?_⟩
  by_cases hn : n = 0
  · rw [hn]
    exact Or.inl rfl
  · exact Or.inr (head_toDigits_ne hn)

/-- A whole number with zeros behind it has no idle zero in front unless it is zero itself. -/
theorem tidy_append_zeros {n k : Nat} (h : n ≠ 0 ∨ k = 0) :
    Tidy (Nat.toDigits 10 n ++ List.replicate k '0') := by
  refine ⟨(digits_toDigits n).append (isDigit_zeros k), ?_⟩
  by_cases hn : n = 0
  · obtain rfl : k = 0 := h.resolve_left (not_not.mpr hn)
    rw [hn]
    exact Or.inl rfl
  · right
    rw [head_append Nat.toDigits_ne_nil]
    exact head_toDigits_ne hn

theorem tidy_take {n k : Nat} (hn : n ≠ 0) (hk : k ≠ 0) : Tidy ((Nat.toDigits 10 n).take k) := by
  have hne : (Nat.toDigits 10 n).take k ≠ [] := by
    rw [Ne, List.take_eq_nil_iff, not_or]
    exact ⟨hk, Nat.toDigits_ne_nil⟩
  refine ⟨⟨hne, fun c hc => isDigit_toDigits c (List.mem_of_mem_take hc)⟩, Or.inr ?_⟩
  rw [List.head?_take, if_neg hk]
  exact head_toDigits_ne hn

/-- One digit is never idle. -/
theorem tidy_take_one (n : Nat) : Tidy ((Nat.toDigits 10 n).take 1) := by
  by_cases hn : n = 0
  · rw [hn]
    exact ⟨digits_zero, Or.inl rfl⟩
  · exact tidy_take hn one_ne_zero

/-- Without a power a decimal is written with a tidy whole part and with digits behind a point,
if there is one. Zero has to be given without a power. -/
theorem positional_eq {d : Decimal} (hd : d.coefficient ≠ 0 ∨ d.exponent = 0) :
    ∃ whole fraction, positional d = ⟨signOf d.negative, whole, fraction, none⟩ ∧ Tidy whole
      ∧ ∀ digits ∈ fraction, Digits digits := by
  have hdigits := digits_toDigits d.coefficient
  unfold positional
  dsimp only
  split_ifs with hexp hlt
  · -- a whole number
    exact ⟨_, _, rfl, tidy_append_zeros (hd.imp id (by omega)), nofun⟩
  · -- the point stands among the digits
    have hne : d.coefficient ≠ 0 := hd.resolve_right (by omega)
    refine ⟨_, _, rfl, tidy_take hne (by omega), ?_⟩
    rintro _ ⟨⟩
    refine ⟨?_, fun c hc => hdigits.2 c (List.mem_of_mem_drop hc)⟩
    rw [Ne, List.drop_eq_nil_iff]
    omega
  · -- the point stands before them
    refine ⟨_, _, rfl, ⟨digits_zero, Or.inl rfl⟩, ?_⟩
    rintro _ ⟨⟩
    exact ⟨List.append_ne_nil_of_right_ne_nil _ hdigits.1, fun c hc =>
      (List.mem_append.mp hc).elim (isDigit_zeros _ c) (hdigits.2 c)⟩

/-- With a power a decimal is always in the look of a JSON number. -/
theorem isReal_scientific (d : Decimal) : IsReal (scientific d) := by
  have hdigits := digits_toDigits d.coefficient
  unfold scientific
  dsimp only
  refine isReal_of_parts d.negative (tidy_take_one _) ?_ ?_ ?_ fun _ => rfl
  · intro digits h
    split_ifs at h with hempty
    · cases h
    · cases h
      exact ⟨by simpa using hempty, fun c hc => hdigits.2 c (List.mem_of_mem_drop hc)⟩
  · rintro _ ⟨⟩ c hc
    split_ifs at hc <;> cases hc
    · exact Or.inr rfl
    · exact Or.inl rfl
  · rintro _ ⟨⟩
    exact digits_toDigits _

/-- **The numeral of a decimal in JSON is one that JSON writes a double with.** -/
theorem isReal_of_decimal {d : Decimal} (hd : d.coefficient ≠ 0 ∨ d.exponent = 0) :
    IsReal (if Document.Value.jsonStyle.plain (leadingPower d) then
      let n := positional d
      if Document.Value.jsonStyle.pointAlways && n.fraction.isNone then
        { n with fraction := some ['0'] }
      else n
    else scientific d) := by
  split_ifs with hplain
  · obtain ⟨whole, fraction, heq, hwhole, hfraction⟩ := positional_eq hd
    rw [heq]
    cases fraction with
    | none =>
      exact isReal_of_parts d.negative hwhole (by rintro _ ⟨⟩; exact digits_zero) nofun nofun nofun
    | some digits => exact isReal_of_parts d.negative hwhole hfraction nofun nofun nofun
  · exact isReal_scientific d

end ScaraArm.Numeral

namespace ScaraArm.Decimal

/-- What JSON writes a double with is told from an integer and reads as a numeral. -/
theorem isReal_of_numeral {x : Float} {n : Numeral}
    (h : Document.Value.jsonStyle.numeral? x = some n) : n.IsReal := by
  obtain ⟨d, hd, rfl⟩ := Option.map_eq_some_iff.mp h
  exact Numeral.isReal_of_decimal (coefficient_shortest hd)

theorem numeral_eq_none_iff {style : Style} {x : Float} :
    style.numeral? x = none ↔ ¬ x.isFinite = true := by
  rw [Style.numeral?, Option.map_eq_none_iff, shortest_eq_none_iff]

end ScaraArm.Decimal
