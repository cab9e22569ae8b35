import Mathlib
import ScaraArm.Document.Toml
import ScaraArm.Proofs.Document.JsonRoundTrip

/-!
# Numbers as keys

A list in JSON begins with a bracket, and so does a header in TOML. What stands between the
brackets are values in one notation and keys in the other, and a number can be both: `300.5` is
the key `5` in the table `300`. So a number in two pairs of brackets, a list in a list, is the
header of a list of tables as well, with nothing under it.

Not all of what JSON allows may surround it. TOML passes over line ends only between statements,
and over a return only in front of a line end; a key has no plus, so the numbers have none either.
-/

namespace ScaraArm.Document

/-! ## What stands around the brackets -/

/-- Blanks and line ends as both notations pass over them. -/
inductive Filler : List Char → Prop
  | nil : Filler []
  | blank {c : Char} {cs : List Char} (hc : Toml.isBlank c = true) (h : Filler cs) :
    Filler (c :: cs)
  | line {cs : List Char} (h : Filler cs) : Filler ('\n' :: cs)
  | returned {cs : List Char} (h : Filler cs) : Filler ('\r' :: '\n' :: cs)

theorem Toml.isBlank_iff {c : Char} : Toml.isBlank c = true ↔ c = ' ' ∨ c = '\t' := by
  simp [Toml.isBlank]

theorem Json.isBlank_iff {c : Char} :
    Json.isBlank c = true ↔ Toml.isBlank c = true ∨ c = '\n' ∨ c = '\r' := by
  simp only [Json.isBlank, Toml.isBlank_iff, Bool.or_eq_true, beq_iff_eq]
  tauto

theorem Filler.isBlank {front : List Char} (h : Filler front) :
    ∀ c ∈ front, Json.isBlank c = true := by
  induction h with
  | nil => exact nofun
  | blank hc _ ih => exact List.forall_mem_cons.mpr ⟨Json.isBlank_iff.mpr (Or.inl hc), ih⟩
  | line _ ih => exact List.forall_mem_cons.mpr ⟨rfl, ih⟩
  | returned _ ih => exact List.forall_mem_cons.mpr ⟨rfl, List.forall_mem_cons.mpr ⟨rfl, ih⟩⟩

/-- Filler ends here: nothing that either notation passes over follows. -/
def Stops (rest : List Char) : Prop := ∀ c ∈ rest.head?, Json.isBlank c = false ∧ c ≠ '#'

namespace Toml

variable {front rest cs : List Char} {c : Char}

theorem skipFiller_return (h : ∀ c ∈ cs.head?, c ≠ '\n') :
    skipFiller false ('\r' :: cs) = some ('\r' :: cs) := by
  cases cs with
  | nil => rfl
  | cons c cs =>
    have hc : c ≠ '\n' := h c rfl
    unfold skipFiller
    split
    case h_4 heq =>
      obtain ⟨rfl, rfl⟩ := List.cons.inj heq
      rfl
    all_goals simp_all

theorem skipFiller_blank (hc : isBlank c = true) :
    skipFiller false (c :: cs) = skipFiller false cs := by
  rcases isBlank_iff.mp hc with rfl | rfl <;> rfl

theorem skipFiller_of_stops (h : Stops rest) : skipFiller false rest = some rest := by
  cases rest with
  | nil => rfl
  | cons c rest =>
    obtain ⟨hblank, hmark⟩ := h c rfl
    have hblank : ¬ (isBlank c = true ∨ c = '\n' ∨ c = '\r') := by
      rw [← Json.isBlank_iff, hblank]
      exact Bool.false_ne_true
    unfold skipFiller
    split <;> simp_all

/-- Filler is passed over. -/
theorem skipFiller_append (h : Filler front) (hrest : Stops rest) :
    skipFiller false (front ++ rest) = some rest := by
  induction h with
  | nil => exact skipFiller_of_stops hrest
  | blank hc _ ih => exact (skipFiller_blank hc).trans ih
  | line _ ih => exact ih
  | returned _ ih => exact ih

/-- Blanks of JSON are filler, unless a return stops TOML. -/
theorem filler_or_return (hfront : ∀ c ∈ front, Json.isBlank c = true) (hrest : Stops rest) :
    Filler front ∨ ∃ left, skipFiller false (front ++ rest) = some ('\r' :: left) := by
  have hline : ∀ c ∈ rest.head?, c ≠ '\n' := by
    rintro c hc rfl
    cases (hrest _ hc).1
  -- two at a time: whether a return is passed over is decided by what stands behind it
  induction front using List.twoStepInduction with
  | nil => exact Or.inl .nil
  | singleton c =>
    rcases Json.isBlank_iff.mp (hfront c (List.mem_singleton_self c)) with hc | rfl | rfl
    · exact Or.inl (.blank hc .nil)
    · exact Or.inl (.line .nil)
    · exact Or.inr ⟨rest, skipFiller_return hline⟩
  | cons_cons c d front ih₂ ih₁ =>
    have hd : ∀ e ∈ d :: front, Json.isBlank e = true := fun e he =>
      hfront e (List.mem_cons_of_mem c he)
    rcases Json.isBlank_iff.mp (hfront c List.mem_cons_self) with hc | rfl | rfl
    · rcases ih₁ d hd with h | ⟨left, h⟩
      · exact Or.inl (.blank hc h)
      · exact Or.inr ⟨left, (skipFiller_blank hc).trans h⟩
    · rcases ih₁ d hd with h | h
      · exact Or.inl (.line h)
      · exact Or.inr h
    · by_cases hd' : d = '\n'
      · subst hd'
        rcases ih₂ fun e he => hd e (List.mem_cons_of_mem _ he) with h | h
        · exact Or.inl (.returned h)
        · exact Or.inr h
      · refine Or.inr ⟨d :: front ++ rest, skipFiller_return ?_⟩
        rintro _ ⟨⟩
        exact hd'

/-! ## Keys -/

/-- TOML passes over fewer blanks than JSON: it may come to a line end. -/
theorem skipBlanks_cases (cs : List Char) :
    skipBlanks cs = Json.skipBlanks cs
      ∨ ∃ c tail, skipBlanks cs = c :: tail ∧ (c = '\n' ∨ c = '\r') := by
  induction cs with
  | nil => exact Or.inl rfl
  | cons c cs ih =>
    unfold skipBlanks Json.skipBlanks at ih ⊢
    by_cases hc : isBlank c = true
    · rw [List.dropWhile_cons_of_pos hc,
        List.dropWhile_cons_of_pos (Json.isBlank_iff.mpr (Or.inl hc))]
      exact ih
    · rw [List.dropWhile_cons_of_neg hc]
      by_cases hline : Json.isBlank c = true
      · exact Or.inr ⟨c, cs, rfl, (Json.isBlank_iff.mp hline).resolve_left hc⟩
      · rw [List.dropWhile_cons_of_neg hline]
        exact Or.inl rfl

theorem not_isBareChar_of_isBlank (h : Json.isBlank c = true) : isBareChar c = false := by
  rcases Json.isBlank_iff.mp h with h | rfl | rfl
  · rcases isBlank_iff.mp h with rfl | rfl <;> decide
  · decide
  · decide

/-- A key without quotes. -/
def Bare (key : List Char) : Prop := key ≠ [] ∧ ∀ c ∈ key, isBareChar c = true

/-- A key ends here, and it is the last one of a path. -/
structure EndsPath (rest : List Char) : Prop where
  bare : ∀ c ∈ rest.head?, isBareChar c = false
  dot : ∀ c ∈ (skipBlanks rest).head?, c ≠ '.'

/-- What follows behind blanks ends an item of a list. -/
def Closes (rest : List Char) : Prop :=
  ∃ c tail, Json.skipBlanks rest = c :: tail ∧ (c = ']' ∨ c = ',')

theorem Closes.endsPath (h : Closes rest) : EndsPath rest := by
  obtain ⟨c, tail, hskip, hc⟩ := h
  constructor
  · intro d hd
    cases rest with
    | nil => cases hd
    | cons e rest =>
      obtain rfl : e = d := Option.some.inj hd
      by_cases hblank : Json.isBlank e = true
      · exact not_isBareChar_of_isBlank hblank
      · rw [Json.skipBlanks, List.dropWhile_cons_of_neg hblank] at hskip
        rw [(List.cons.inj hskip).1]
        rcases hc with rfl | rfl <;> decide
  · intro d hd
    rcases skipBlanks_cases rest with heq | ⟨e, more, heq, he⟩
    · rw [heq, hskip] at hd
      cases hd
      rcases hc with rfl | rfl <;> decide
    · rw [heq] at hd
      cases hd
      rcases he with rfl | rfl <;> decide

theorem scanKey_append {key : List Char} (h : Bare key)
    (hrest : ∀ c ∈ rest.head?, isBareChar c = false) :
    scanKey (key ++ rest) = some (String.ofList key, rest) := by
  obtain ⟨htake, hdrop⟩ := Numeral.span_append h.2 hrest
  obtain ⟨c, tail, rfl⟩ := List.exists_cons_of_ne_nil h.1
  have hc : isBareChar c = true := h.2 c List.mem_cons_self
  unfold scanKey
  split
  · rename_i heq
    rw [(List.cons.inj heq).1] at hc
    cases hc
  · rename_i heq
    rw [(List.cons.inj heq).1] at hc
    cases hc
  · rw [htake, hdrop]
    rfl

/-- No blank stands in front of a key. -/
theorem skipBlanks_bare {key : List Char} (h : Bare key) :
    skipBlanks (key ++ rest) = key ++ rest := by
  obtain ⟨c, tail, rfl⟩ := List.exists_cons_of_ne_nil h.1
  refine List.dropWhile_cons_of_neg fun hblank => ?_
  have hbare := not_isBareChar_of_isBlank (Json.isBlank_iff.mpr (Or.inl hblank))
  rw [h.2 c List.mem_cons_self] at hbare
  cases hbare

theorem scanPath_eq_none (h : scanKey cs = none) (fuel : Nat) : scanPath fuel cs = none := by
  cases fuel with
  | zero => rfl
  | succ fuel =>
    unfold scanPath
    rw [h]
    rfl

theorem scanPath_last {key : List Char} (h : Bare key) (hrest : EndsPath rest) (fuel : Nat) :
    scanPath (fuel + 1) (key ++ rest) = some (([], String.ofList key), skipBlanks rest) := by
  conv_lhs => unfold scanPath
  rw [scanKey_append h hrest.bare, Option.bind_eq_bind, Option.bind_some]
  dsimp only
  split
  · rename_i heq
    exact absurd rfl (hrest.dot '.' (by rw [heq]; rfl))
  · rfl

theorem scanPath_dot {key : List Char} (h : Bare key) (fuel : Nat) :
    scanPath (fuel + 1) (key ++ '.' :: rest)
      = (scanPath fuel (skipBlanks rest)).bind fun p =>
        some ((String.ofList key :: p.1.1, p.1.2), p.2) := by
  conv_lhs => unfold scanPath
  rw [scanKey_append h (by rintro _ ⟨⟩; decide)]
  rfl

/-! ## Numbers as keys -/

section

variable {n : Numeral} {letter : Char}

theorem isBareChar_of_isDigit (h : c.isDigit = true) : isBareChar c = true := by
  simp [isBareChar, Char.isAlphanum, h]

/-- Of the characters of a power only a plus can stand in no key. -/
theorem isBareChar_of_mem_powerChars (h : n.Proper) (hletter : letter = 'e' ∨ letter = 'E') :
    ∀ c ∈ n.powerChars letter, isBareChar c = true ∨ c = '+' := by
  intro c hc
  unfold Numeral.powerChars at hc
  cases hp : n.power with
  | none =>
    rw [hp] at hc
    cases hc
  | some p =>
    obtain ⟨sign, digits⟩ := p
    rw [hp] at hc
    rcases List.mem_cons.mp hc with rfl | hc
    · left
      rcases hletter with rfl | rfl <;> decide
    rcases List.mem_append.mp hc with hc | hc
    · rcases h.powerSign _ hp c (Option.mem_toList.mp hc) with rfl | rfl
      · exact Or.inr rfl
      · exact Or.inl (by decide)
    · exact Or.inl (isBareChar_of_isDigit (h.power _ hp c hc))

/-- What stands in front of the point of a JSON number is a key. -/
theorem bare_whole (h : n.Proper) (hn : Json.isNumber n = true) :
    Bare (n.sign.toList ++ n.whole) := by
  refine ⟨List.append_ne_nil_of_right_ne_nil _ h.whole_ne, fun c hc => ?_⟩
  rcases List.mem_append.mp hc with hc | hc
  · have hsign : n.sign = some c := Option.mem_toList.mp hc
    rcases h.sign c hsign with rfl | rfl
    · simp [Json.isNumber, hsign] at hn
    · decide
  · exact isBareChar_of_isDigit (h.whole c hc)

theorem Bare.append {key more : List Char} (h : Bare key)
    (hmore : ∀ c ∈ more, isBareChar c = true) : Bare (key ++ more) := by
  refine ⟨List.append_ne_nil_of_left_ne_nil h.1 more, fun c hc => ?_⟩
  rcases List.mem_append.mp hc with hc | hc
  · exact h.2 c hc
  · exact hmore c hc

/-- The keys that a number is read as: its point is a dot, and it ends in front of a plus. -/
def keysOf (letter : Char) (n : Numeral) : List String × String :=
  let power := (n.powerChars letter).takeWhile isBareChar
  match n.fraction with
  | none => ([], String.ofList (n.sign.toList ++ n.whole ++ power))
  | some digits => ([String.ofList (n.sign.toList ++ n.whole)], String.ofList (digits ++ power))

/-- What is left of a number behind its keys begins with a plus. -/
theorem head_powerChars (h : n.Proper) (hletter : letter = 'e' ∨ letter = 'E') :
    ∀ c ∈ ((n.powerChars letter).dropWhile isBareChar).head?, c = '+' := by
  intro c hc
  have hmem : c ∈ n.powerChars letter :=
    (List.dropWhile_sublist isBareChar).subset (List.mem_of_mem_head? hc)
  refine (isBareChar_of_mem_powerChars h hletter c hmem).resolve_left fun hbare => ?_
  have hnot := List.head?_dropWhile_not isBareChar (n.powerChars letter)
  rw [Option.mem_def.mp hc] at hnot
  cases hbare.symm.trans hnot

/-- A number without a plus is read as keys to its end. -/
theorem plus_iff (h : n.Proper) (hn : Json.isNumber n = true)
    (hletter : letter = 'e' ∨ letter = 'E') :
    '+' ∉ n.written letter ↔ (n.powerChars letter).dropWhile isBareChar = [] := by
  constructor
  · intro hplus
    cases hdrop : (n.powerChars letter).dropWhile isBareChar with
    | nil => rfl
    | cons c tail =>
      have hc : c = '+' := head_powerChars h hletter c (by rw [hdrop]; rfl)
      have hmem : c ∈ n.powerChars letter :=
        (List.dropWhile_sublist isBareChar).subset (by rw [hdrop]; exact List.mem_cons_self)
      rw [hc] at hmem
      refine absurd ?_ hplus
      unfold Numeral.written
      simp [hmem]
  · -- of all places only the sign of the power is left for a plus
    intro hdrop hplus
    unfold Numeral.written at hplus
    rw [← List.append_assoc] at hplus
    rcases List.mem_append.mp hplus with hplus | hplus
    · cases (bare_whole h hn).2 _ hplus
    rcases List.mem_append.mp hplus with hplus | hplus
    · unfold Numeral.fractionChars at hplus
      cases hf : n.fraction with
      | none =>
        rw [hf] at hplus
        cases hplus
      | some digits =>
        rw [hf] at hplus
        rcases List.mem_cons.mp hplus with hpoint | hplus
        · cases hpoint
        · cases h.fraction _ hf _ hplus
    · cases List.dropWhile_eq_nil_iff.mp hdrop _ hplus

theorem EndsPath.powerChars (h : n.Proper) (hletter : letter = 'e' ∨ letter = 'E')
    (hrest : EndsPath rest) : EndsPath ((n.powerChars letter).dropWhile isBareChar ++ rest) := by
  have hhead := head_powerChars h hletter
  cases hplus : (n.powerChars letter).dropWhile isBareChar with
  | nil => exact hrest
  | cons c tail =>
    rw [hplus] at hhead
    obtain rfl : c = '+' := hhead c rfl
    constructor
    · rintro _ ⟨⟩
      decide
    · rintro _ ⟨⟩
      decide

/-- **A number is read as keys**, up to a plus. -/
theorem scanPath_written (h : n.Proper) (hn : Json.isNumber n = true)
    (hletter : letter = 'e' ∨ letter = 'E') (hrest : EndsPath rest) (fuel : Nat) :
    scanPath (fuel + 2) (n.written letter ++ rest)
      = some (keysOf letter n,
        skipBlanks ((n.powerChars letter).dropWhile isBareChar ++ rest)) := by
  have hpower : ∀ c ∈ (n.powerChars letter).takeWhile isBareChar, isBareChar c = true :=
    fun c hc => List.mem_takeWhile_imp hc
  have hends := hrest.powerChars h hletter
  have hsplit : n.powerChars letter ++ rest = (n.powerChars letter).takeWhile isBareChar
      ++ ((n.powerChars letter).dropWhile isBareChar ++ rest) := by
    rw [← List.append_assoc, List.takeWhile_append_dropWhile]
  unfold Numeral.written Numeral.fractionChars keysOf
  -- the power belongs to the last key, which is the only one if there is no point
  cases hf : n.fraction with
  | none =>
    have hkey := (bare_whole h hn).append hpower
    simp only [List.append_assoc, List.nil_append] at hkey ⊢
    rw [hsplit]
    have hlast := scanPath_last hkey hends (fuel + 1)
    simp only [List.append_assoc] at hlast
    exact hlast
  | some digits =>
    have hdigits : Bare digits := by
      refine ⟨?_, fun c hc => isBareChar_of_isDigit (h.fraction _ hf c hc)⟩
      rintro rfl
      simp [Json.isNumber, Numeral.fractionIsTidy, hf] at hn
    have hkey := hdigits.append hpower
    have hdot : n.sign.toList ++ (n.whole ++ ('.' :: digits ++ n.powerChars letter)) ++ rest
        = n.sign.toList ++ n.whole ++ '.' :: (digits ++ (n.powerChars letter).takeWhile isBareChar
          ++ ((n.powerChars letter).dropWhile isBareChar ++ rest)) := by
      simp only [List.append_assoc, List.cons_append, hsplit]
    show scanPath (fuel + 2) (n.sign.toList ++ (n.whole ++ ('.' :: digits ++ n.powerChars letter))
      ++ rest) = _
    rw [hdot, scanPath_dot (bare_whole h hn), skipBlanks_bare hkey, scanPath_last hkey hends]
    rfl

end

end Toml

/-! ## A number in two pairs of brackets -/

/-- A number in two pairs of brackets: a list in a list in JSON, and in TOML the header of a list
of tables with nothing under it. -/
inductive BracketedNumber (n : Numeral) : List Char → Prop
  | intro {front left run right back : List Char} (hfront : Filler front)
      (hleft : ∀ c ∈ left, Toml.isBlank c = true) (hscan : Numeral.scan run = (n, []))
      (hnumber : Json.isNumber n = true) (hplus : '+' ∉ run)
      (hright : ∀ c ∈ right, Toml.isBlank c = true) (hback : Filler back) :
      BracketedNumber n (front ++ '[' :: '[' :: (left ++ (run ++ (right ++ ']' :: ']' :: back))))

namespace Toml

variable {n : Numeral} {letter : Char} {front left right back rest : List Char}

theorem skipBlanks_append (h : ∀ c ∈ left, isBlank c = true) :
    skipBlanks (left ++ rest) = skipBlanks rest :=
  List.dropWhile_append_of_pos h

/-- Blanks of TOML are blanks of JSON. -/
theorem skipBlanks_append_json (h : ∀ c ∈ left, isBlank c = true) :
    Json.skipBlanks (left ++ rest) = Json.skipBlanks rest :=
  List.dropWhile_append_of_pos fun c hc => Json.isBlank_iff.mpr (Or.inl (h c hc))

theorem skipBlanks_written (h : n.Proper) (hn : Json.isNumber n = true) :
    skipBlanks (n.written letter ++ rest) = n.written letter ++ rest := by
  have hassoc : n.written letter ++ rest
      = n.sign.toList ++ n.whole ++ (n.fractionChars ++ n.powerChars letter ++ rest) := by
    simp only [Numeral.written, List.append_assoc]
  rw [hassoc]
  exact skipBlanks_bare (bare_whole h hn)

/-- The header that a number in two pairs of brackets is. -/
theorem scanStatement_bracketed (h : n.Proper) (hn : Json.isNumber n = true)
    (hletter : letter = 'e' ∨ letter = 'E') (hplus : '+' ∉ n.written letter)
    (hleft : ∀ c ∈ left, isBlank c = true) (hright : ∀ c ∈ right, isBlank c = true) :
    scanStatement ('[' :: '[' :: (left ++ (n.written letter ++ (right ++ ']' :: ']' :: back))))
      = some (.row (keysOf letter n).1 (keysOf letter n).2, back) := by
  have hpower := (plus_iff h hn hletter).mp hplus
  have hclose : Closes (right ++ ']' :: ']' :: back) :=
    ⟨']', ']' :: back, skipBlanks_append_json hright, Or.inl rfl⟩
  unfold scanStatement
  show (scanPath (78 + 2) (skipBlanks _)).bind _ = _
  rw [skipBlanks_append hleft, skipBlanks_written h hn,
    scanPath_written h hn hletter hclose.endsPath, hpower, List.nil_append,
    skipBlanks_append hright]
  rfl

theorem skipLineEnd_filler (h : Filler back) :
    ∃ rest, skipLineEnd back = some rest ∧ Filler rest := by
  induction h with
  | nil => exact ⟨[], rfl, .nil⟩
  | @blank c cs hc _ ih =>
    obtain ⟨rest, hrest, hfiller⟩ := ih
    refine ⟨rest, ?_, hfiller⟩
    rw [← hrest]
    unfold skipLineEnd skipBlanks
    rw [List.dropWhile_cons_of_pos hc]
  | @line cs h => exact ⟨cs, rfl, h⟩
  | @returned cs h => exact ⟨cs, rfl, h⟩

theorem scanStatements_filler (h : Filler rest) (fuel : Nat) :
    scanStatements (fuel + 1) rest = some [] := by
  have hskip : skipFiller false (rest ++ []) = some [] := skipFiller_append h nofun
  rw [List.append_nil] at hskip
  unfold scanStatements
  rw [hskip]
  rfl

/-- The table that a header makes which has nothing under it: its first key, with something
readable behind it. -/
theorem build_row (path : List String) (key : String) (h : path.length ≤ 1) :
    ∃ v, build? [.row path key] = some (.table [(some (path.headD key), v)])
      ∧ v.isReadable = true := by
  match path, h with
  | [], _ => exact ⟨.list [.table []], rfl, rfl⟩
  | [first], _ => exact ⟨.table [(some key, .list [.table []])], rfl, rfl⟩

/-- The first key that a number is read as begins like the number. -/
theorem head_keysOf (letter : Char) (h : n.Proper) (hn : Json.isNumber n = true) :
    ∃ c tail, (keysOf letter n).1.headD (keysOf letter n).2 = String.ofList (c :: tail)
      ∧ (c.isDigit = true ∨ c = '-') := by
  have hkey : ∃ more, (keysOf letter n).1.headD (keysOf letter n).2
      = String.ofList (n.sign.toList ++ n.whole ++ more) := by
    unfold keysOf
    cases n.fraction with
    | none => exact ⟨_, rfl⟩
    | some digits => exact ⟨[], by rw [List.append_nil]; rfl⟩
  obtain ⟨more, hkey⟩ := hkey
  obtain ⟨c, tail, hc, hhead⟩ := Numeral.head_of_isNumber h hn
  exact ⟨c, tail ++ more, by rw [hkey, hc]; rfl, hhead⟩

/-- The statements from the first character on that is no filler. -/
theorem scanStatements_of_skipFiller {cs tail : List Char} {c : Char}
    (h : skipFiller false cs = some (c :: tail)) (fuel : Nat) :
    scanStatements (fuel + 1) cs
      = (scanStatement (c :: tail)).bind fun p => (skipLineEnd p.2).bind fun rest =>
        (scanStatements fuel rest).bind fun statements => some (p.1 :: statements) := by
  conv_lhs => unfold scanStatements
  rw [h]
  rfl

theorem read?_append (hfront : ∀ c ∈ front, Json.isBlank c = true) {c : Char} {tail : List Char}
    (hmark : c ≠ '\uFEFF') :
    read? (front ++ c :: tail)
      = (scanStatements ((front ++ c :: tail).length + 1) (front ++ c :: tail)).bind build? := by
  unfold read?
  split
  · rename_i heq
    cases front with
    | nil => exact absurd (List.cons.inj heq).1 hmark
    | cons d front =>
      have hd := hfront d List.mem_cons_self
      rw [(List.cons.inj heq).1] at hd
      cases hd
  · rfl

/-- **TOML reads a number in two pairs of brackets**, as a table of a single key that begins like
the number. -/
theorem read?_of_bracketed {cs : List Char} (h : BracketedNumber n cs) :
    ∃ c tail v, read? cs = some (.table [(some (String.ofList (c :: tail)), v)])
      ∧ (c.isDigit = true ∨ c = '-') ∧ v.isReadable = true := by
  obtain ⟨hfront, hleft, hscan, hnumber, hplus, hright, hback⟩ := h
  obtain ⟨hproper, letter, hletter, hrun⟩ := Numeral.eq_of_scan hscan hnumber
  rw [List.append_nil] at hrun
  rw [hrun] at hplus ⊢
  obtain ⟨rest, hend, hrest⟩ := skipLineEnd_filler hback
  have hlength : (keysOf letter n).1.length ≤ 1 := by
    unfold keysOf
    cases n.fraction with
    | none => exact Nat.zero_le 1
    | some _ => exact Nat.le_refl 1
  obtain ⟨v, hbuild, hreadable⟩ := build_row _ (keysOf letter n).2 hlength
  obtain ⟨c, tail, hkey, hc⟩ := head_keysOf letter hproper hnumber
  have hstops : ∀ cs, Stops ('[' :: cs) := by
    rintro cs _ ⟨⟩
    decide
  refine ⟨c, tail, v, ?_, hc, hreadable⟩
  rw [read?_append hfront.isBlank (by decide), List.length_append, List.length_cons,
    ← Nat.add_assoc, scanStatements_of_skipFiller (skipFiller_append hfront (hstops _)),
    scanStatement_bracketed hproper hnumber hletter hplus hleft hright, Option.bind_some, hend,
    Option.bind_some, scanStatements_filler hrest, Option.bind_some, Option.bind_some, hbuild, hkey]

end Toml

end ScaraArm.Document
