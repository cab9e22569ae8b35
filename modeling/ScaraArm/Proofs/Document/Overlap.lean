import Mathlib
import ScaraArm.Proofs.Document.Keys

/-!
# Texts in both notations

Some texts are JSON and TOML at once. Those that matter here are the JSON texts that fields can
be read from: tables, and lists that stand for tables.

A table in JSON begins with a brace, and no statement of TOML does. A list begins with a bracket,
like a header, but in a header a key has to follow, or a second bracket and a key. So the list
begins with a list, this one begins with a number, and the header ends behind it: nothing can
follow the number in either list.
-/

namespace ScaraArm.Document

/-- A document that fields can be read from. -/
def Value.HasFields : Value → Prop
  | .list _ | .table _ | .instant => True
  | _ => False

/-- A document of fields whose first field, if it is given by its position, has fields in turn, and
the first of those is a number. -/
structure Value.LeadsToNumber (v : Value) : Prop where
  outer : v.HasFields
  inner : ∀ {first more}, v = .list (first :: more) → first.HasFields
  number : ∀ {w inner more}, v = .list (.list (w :: inner) :: more) → w.float?.isSome = true

/-- What follows behind blanks is no scalar: a list or a table begins here, or a list ends. -/
def Brackets (cs : List Char) : Prop :=
  ∃ c tail, Json.skipBlanks cs = c :: tail ∧ (c = ']' ∨ c = '[' ∨ c = '{')

/-! ## What JSON was read from -/

namespace Json

variable {number : Numeral → Option Float} {v : Value} {cs rest : List Char} {fuel : Nat}

/-- **What a value was read from**: a list, a table, or something that is neither. -/
theorem scanValue_cases (h : scanValue number fuel cs = some (v, rest)) :
    (∃ fuel' tail items, cs = '[' :: tail ∧ v = .list items
        ∧ (items = [] ∧ skipBlanks tail = ']' :: rest
          ∨ scanItems number fuel' (skipBlanks tail) = some (items, rest)))
      ∨ (∃ tail entries, cs = '{' :: tail ∧ v = .table entries)
      ∨ ¬ v.HasFields ∧ (v.float?.isSome = true → scanNumber number cs = some (v, rest)) := by
  cases fuel with
  | zero => cases h
  | succ fuel =>
    unfold scanValue at h
    split at h
    · cases h
      exact Or.inr (Or.inr ⟨id, nofun⟩)
    · cases h
      exact Or.inr (Or.inr ⟨id, nofun⟩)
    · cases h
      exact Or.inr (Or.inr ⟨id, nofun⟩)
    · obtain ⟨⟨key, left⟩, -, hv⟩ := Option.map_eq_some_iff.mp h
      cases key <;> cases hv <;> exact Or.inr (Or.inr ⟨id, nofun⟩)
    · rename_i tail
      left
      split at h
      · rename_i heq
        cases h
        exact ⟨fuel, tail, [], rfl, rfl, Or.inl ⟨rfl, heq⟩⟩
      · obtain ⟨⟨items, left⟩, hitems, hv⟩ := Option.map_eq_some_iff.mp h
        cases hv
        exact ⟨fuel, tail, items, rfl, rfl, Or.inr hitems⟩
    · rename_i tail
      right; left
      split at h
      · cases h
        exact ⟨tail, [], rfl, rfl⟩
      · obtain ⟨⟨entries, left⟩, -, hv⟩ := Option.map_eq_some_iff.mp h
        cases hv
        exact ⟨tail, entries, rfl, rfl⟩
    · refine Or.inr (Or.inr ⟨?_, fun _ => h⟩)
      unfold scanNumber ofNumeral at h
      dsimp only at h
      split_ifs at h
      · cases h
        exact id
      · split at h <;> (cases h; exact id)

/-- **What the items of a list were read from**: a first one, and a bracket or more items behind
it. -/
theorem scanItems_cases {items : List Value} (h : scanItems number fuel cs = some (items, rest)) :
    ∃ fuel' first more left, items = first :: more
      ∧ scanValue number fuel' cs = some (first, left)
      ∧ (more = [] ∧ skipBlanks left = ']' :: rest
        ∨ ∃ tail, skipBlanks left = ',' :: tail) := by
  cases fuel with
  | zero => cases h
  | succ fuel =>
    unfold scanItems at h
    obtain ⟨⟨first, left⟩, hfirst, h⟩ := Option.bind_eq_some_iff.mp h
    dsimp only at h
    split at h
    · rename_i heq
      cases h
      exact ⟨fuel, first, [], left, rfl, hfirst, Or.inl ⟨rfl, heq⟩⟩
    · rename_i tail heq
      obtain ⟨⟨more, left'⟩, -, h⟩ := Option.bind_eq_some_iff.mp h
      cases h
      exact ⟨fuel, first, more, left, rfl, hfirst, Or.inr ⟨tail, heq⟩⟩
    · cases h

theorem brackets_of_items {items : List Value}
    (h : items = [] ∧ skipBlanks cs = ']' :: rest
      ∨ scanItems number fuel (skipBlanks cs) = some (items, rest))
    (hfirst : ∀ {first more}, items = first :: more → first.HasFields) : Brackets cs := by
  rcases h with ⟨-, hskip⟩ | hitems
  · exact ⟨']', rest, hskip, Or.inl rfl⟩
  obtain ⟨_, first, more, left, hmore, hvalue, -⟩ := scanItems_cases hitems
  rcases scanValue_cases hvalue with ⟨_, tail, _, heq, -⟩ | ⟨tail, _, heq, -⟩ | ⟨hnone, -⟩
  · exact ⟨'[', tail, heq, Or.inr (Or.inl rfl)⟩
  · exact ⟨'{', tail, heq, Or.inr (Or.inr rfl)⟩
  · exact absurd (hfirst hmore) hnone

/-- What is in a list that leads to a number is no scalar. -/
theorem brackets_of_list (h : scanValue number fuel ('[' :: cs) = some (v, rest))
    (hv : v.LeadsToNumber) : Brackets cs := by
  rcases scanValue_cases h with ⟨_, tail, items, heq, rfl, hitems⟩ | ⟨_, _, heq, -⟩ | ⟨hnone, -⟩
  · cases heq
    exact brackets_of_items hitems fun hmore => hv.inner (congrArg Value.list hmore)
  · cases heq
  · exact absurd hv.outer hnone

/-- A number stands where no list and no table begins. -/
theorem numeral_of_float? (h : scanValue number fuel cs = some (v, rest))
    (hv : v.float?.isSome = true) :
    (∃ c tail, cs = c :: tail ∧ (c = '[' ∨ c = '{'))
      ∨ ∃ n, Numeral.scan cs = (n, rest) ∧ isNumber n = true ∧ v = ofNumeral number n := by
  rcases scanValue_cases h with ⟨_, tail, _, heq, -⟩ | ⟨tail, _, heq, -⟩ | ⟨-, hscan⟩
  · exact Or.inl ⟨'[', tail, heq, Or.inl rfl⟩
  · exact Or.inl ⟨'{', tail, heq, Or.inr rfl⟩
  · right
    replace hscan := hscan hv
    unfold scanNumber at hscan
    rcases hn : Numeral.scan cs with ⟨n, left⟩
    rw [hn] at hscan
    dsimp only at hscan
    split_ifs at hscan with hlook
    cases hscan
    exact ⟨n, rfl, hlook, rfl⟩

/-- **A list of a list that leads to a number**, if there is anything in the inner one, has the
number there, and if two brackets follow it nothing else. -/
theorem number_of_list (h : scanValue number fuel ('[' :: '[' :: cs) = some (v, rest))
    (hv : v.LeadsToNumber) :
    Brackets cs ∨ ∃ n left, Numeral.scan (skipBlanks cs) = (n, left) ∧ isNumber n = true
      ∧ Toml.Closes left ∧ ∀ back, skipBlanks left = ']' :: ']' :: back →
        v = .list [.list [ofNumeral number n]] ∧ rest = back := by
  rcases scanValue_cases h with ⟨_, _, items, heq, rfl, hitems⟩ | ⟨_, _, heq, -⟩ | ⟨hnone, -⟩
  rotate_left
  · cases heq
  · exact absurd hv.outer hnone
  cases heq
  rcases hitems with ⟨-, heq⟩ | hitems
  · cases heq
  obtain ⟨_, first, more, behind, rfl, hfirst, hmore⟩ := scanItems_cases hitems
  rcases scanValue_cases hfirst with ⟨_, _, inner, heq, rfl, hinner⟩ | ⟨_, _, heq, -⟩ | ⟨hnone, -⟩
  rotate_left
  · cases heq
  · exact absurd (hv.inner rfl) hnone
  cases heq
  rcases hinner with ⟨-, heq⟩ | hinner
  · exact Or.inl ⟨']', behind, heq, Or.inl rfl⟩
  obtain ⟨_, w, others, left, rfl, hw, hothers⟩ := scanItems_cases hinner
  rcases numeral_of_float? hw (hv.number rfl) with ⟨c, tail, heq, hc⟩ | ⟨n, hscan, hn, rfl⟩
  · exact Or.inl ⟨c, tail, heq, Or.inr hc⟩
  refine Or.inr ⟨n, left, hscan, hn, ?_, ?_⟩
  · rcases hothers with ⟨-, heq⟩ | ⟨tail, heq⟩
    · exact ⟨']', behind, heq, Or.inl rfl⟩
    · exact ⟨',', tail, heq, Or.inr rfl⟩
  · -- the first bracket ends the inner list, the second one the outer
    intro back hback
    rcases hothers with ⟨rfl, heq⟩ | ⟨tail, heq⟩ <;> cases heq.symm.trans hback
    rcases hmore with ⟨rfl, heq⟩ | ⟨tail, heq⟩ <;> cases heq
    exact ⟨rfl, rfl⟩

end Json

/-! ## What TOML makes of it -/

namespace Toml

variable {front cs rest back left : List Char} {c : Char} {fuel : Nat} {n : Numeral}

/-- A statement begins with a key or with a bracket. -/
theorem scanStatement_eq_none (hc : c ≠ '[') (h : scanKey (c :: cs) = none) :
    scanStatement (c :: cs) = none := by
  unfold scanStatement
  split
  · rename_i heq
    exact absurd (List.cons.inj heq).1 hc
  · rename_i heq
    exact absurd (List.cons.inj heq).1 hc
  · rw [scanPath_eq_none h]
    rfl

/-- TOML reads on behind blanks of JSON only if they are filler. -/
theorem filler_of_scanStatements (hfront : ∀ c ∈ front, Json.isBlank c = true) (hrest : Stops rest)
    {statements : List Statement} (h : scanStatements fuel (front ++ rest) = some statements) :
    Filler front := by
  refine (filler_or_return hfront hrest).resolve_right ?_
  rintro ⟨left, hskip⟩
  cases fuel with
  | zero => cases h
  | succ fuel =>
    rw [scanStatements_of_skipFiller hskip, scanStatement_eq_none (by decide) rfl] at h
    cases h

/-- In front of a bracket, and in front of a line end, there is no key. -/
theorem scanPath_brackets (h : Brackets cs) (fuel : Nat) :
    scanPath fuel (skipBlanks cs) = none := by
  obtain ⟨c, tail, hskip, hc⟩ := h
  rcases skipBlanks_cases cs with heq | ⟨d, more, heq, hd⟩
  · rw [heq, hskip]
    rcases hc with rfl | rfl | rfl <;> exact scanPath_eq_none rfl fuel
  · rw [heq]
    rcases hd with rfl | rfl <;> exact scanPath_eq_none rfl fuel

theorem scanPath_of_row {statement : Statement}
    (h : scanStatement ('[' :: '[' :: cs) = some (statement, back)) :
    ∃ p, scanPath maxDepth (skipBlanks cs) = some (p, ']' :: ']' :: back) := by
  unfold scanStatement at h
  obtain ⟨⟨⟨path, key⟩, rest⟩, hpath, h⟩ := Option.bind_eq_some_iff.mp h
  dsimp only at h
  split at h
  · cases h
    exact ⟨(path, key), hpath⟩
  · cases h

theorem scanPath_of_table {statement : Statement} (hcs : ∀ c ∈ cs.head?, c ≠ '[')
    (h : scanStatement ('[' :: cs) = some (statement, back)) :
    ∃ p, scanPath maxDepth (skipBlanks cs) = some p := by
  unfold scanStatement at h
  split at h
  · rename_i heq
    rw [(List.cons.inj heq).2] at hcs
    exact absurd rfl (hcs '[' rfl)
  · rename_i heq
    obtain ⟨p, hpath, -⟩ := Option.bind_eq_some_iff.mp h
    rw [(List.cons.inj heq).2]
    exact ⟨p, hpath⟩
  · rename_i hnot
    exact absurd rfl (hnot cs)

/-- Blanks in a line, and what follows them. -/
theorem exists_blanks (cs : List Char) :
    ∃ left, cs = left ++ skipBlanks cs ∧ ∀ c ∈ left, isBlank c = true :=
  ⟨cs.takeWhile isBlank, List.takeWhile_append_dropWhile.symm,
    fun _ hc => List.mem_takeWhile_imp hc⟩

/-- **A number that TOML reads as the keys of a header**: there is no plus in it, and only blanks
in the line stand around it. -/
theorem run_of_row (hscan : Numeral.scan (Json.skipBlanks cs) = (n, rest))
    (hn : Json.isNumber n = true) (hrest : Closes rest) {p : List String × String}
    (hpath : scanPath maxDepth (skipBlanks cs) = some (p, ']' :: ']' :: back)) :
    ∃ left run right, cs = left ++ (run ++ (right ++ ']' :: ']' :: back))
      ∧ (∀ c ∈ left, isBlank c = true) ∧ Numeral.scan run = (n, []) ∧ '+' ∉ run
      ∧ (∀ c ∈ right, isBlank c = true) ∧ rest = right ++ ']' :: ']' :: back := by
  have hsame : skipBlanks cs = Json.skipBlanks cs := by
    refine (skipBlanks_cases cs).resolve_right ?_
    rintro ⟨d, more, heq, hd⟩
    rw [heq] at hpath
    rcases hd with rfl | rfl <;> (rw [scanPath_eq_none rfl] at hpath; cases hpath)
  obtain ⟨hproper, letter, hletter, hrun⟩ := Numeral.eq_of_scan hscan hn
  rw [hsame, hrun] at hpath
  replace hpath := (scanPath_written hproper hn hletter hrest.endsPath 78).symm.trans hpath
  have hbehind := (Prod.mk.inj (Option.some.inj hpath)).2
  -- a plus would stand where the brackets are
  have hdrop : (n.powerChars letter).dropWhile isBareChar = [] := by
    have hhead := head_powerChars hproper hletter
    cases hplus : (n.powerChars letter).dropWhile isBareChar with
    | nil => rfl
    | cons d tail =>
      rw [hplus] at hhead hbehind
      obtain rfl : d = '+' := hhead d rfl
      cases (List.cons.inj hbehind).1
  rw [hdrop, List.nil_append] at hbehind
  obtain ⟨left, hleft, hblank⟩ := exists_blanks cs
  obtain ⟨right, hright, hblank'⟩ := exists_blanks rest
  rw [hbehind] at hright
  have hagain : Numeral.scan (n.written letter ++ []) = (n, []) :=
    Numeral.scan_written hproper hletter nofun
  rw [List.append_nil] at hagain
  refine ⟨left, n.written letter, right, ?_, hblank, hagain,
    (plus_iff hproper hn hletter).mpr hdrop, hblank', hright⟩
  rw [← hright, ← hrun, ← hsame]
  exact hleft

theorem filler_append (hleft : ∀ c ∈ left, isBlank c = true) (h : Filler cs) :
    Filler (left ++ cs) := by
  induction left with
  | nil => exact h
  | cons c left ih =>
    obtain ⟨hc, hleft⟩ := List.forall_mem_cons.mp hleft
    exact .blank hc (ih hleft)

/-- Blanks of JSON behind the last statement are filler. -/
theorem filler_of_skipLineEnd (hback : ∀ c ∈ back, Json.isBlank c = true)
    (hend : skipLineEnd back = some rest) {statements : List Statement}
    (h : scanStatements fuel rest = some statements) : Filler back := by
  obtain ⟨left, hleft, hblank⟩ := exists_blanks back
  have hsuffix : ∀ c ∈ skipBlanks back, Json.isBlank c = true := fun c hc =>
    hback c ((List.dropWhile_sublist isBlank).subset hc)
  rw [hleft]
  refine filler_append hblank ?_
  unfold skipLineEnd at hend
  -- what is left behind the line end is read as statements again
  have hlast : ∀ {tail}, (∀ c ∈ tail, Json.isBlank c = true) →
      scanStatements fuel tail = some statements → Filler tail := by
    intro tail htail h
    have hend : Stops [] := nofun
    rw [← List.append_nil tail] at h
    exact filler_of_scanStatements htail hend h
  split at hend
  · rename_i heq
    rw [heq]
    exact .nil
  · rename_i heq
    cases hend
    rw [heq] at hsuffix ⊢
    exact .line (hlast (fun c hc => hsuffix c (List.mem_cons_of_mem _ hc)) h)
  · rename_i heq
    cases hend
    rw [heq] at hsuffix ⊢
    exact .returned (hlast (fun c hc =>
      hsuffix c (List.mem_cons_of_mem _ (List.mem_cons_of_mem _ hc))) h)
  · rename_i heq
    rw [heq] at hsuffix
    cases hsuffix '#' List.mem_cons_self
  · cases hend

/-- **What TOML reads behind blanks of JSON**: they are filler, and a statement follows. -/
theorem statement_of_read? (hfront : ∀ c ∈ front, Json.isBlank c = true)
    (hstops : Stops (c :: cs)) (hmark : c ≠ '\uFEFF') {t : Value}
    (h : read? (front ++ c :: cs) = some t) :
    Filler front ∧ ∃ statement back, scanStatement (c :: cs) = some (statement, back)
      ∧ ((∀ c ∈ back, Json.isBlank c = true) → Filler back) := by
  rw [read?_append hfront hmark] at h
  obtain ⟨statements, hstatements, -⟩ := Option.bind_eq_some_iff.mp h
  have hfiller := filler_of_scanStatements hfront hstops hstatements
  rw [scanStatements_of_skipFiller (skipFiller_append hfiller hstops)] at hstatements
  obtain ⟨⟨statement, back⟩, hstatement, hrest⟩ := Option.bind_eq_some_iff.mp hstatements
  obtain ⟨rest, hend, hrest⟩ := Option.bind_eq_some_iff.mp hrest
  obtain ⟨more, hmore, -⟩ := Option.bind_eq_some_iff.mp hrest
  exact ⟨hfiller, statement, back, hstatement, fun hback => filler_of_skipLineEnd hback hend hmore⟩

end Toml

/--
**What is read in both notations is one number in two pairs of brackets**, if it is a document
that fields can be read from.
-/
theorem bracketed_of_read? {number : Numeral → Option Float} {cs : List Char} {v t : Value}
    (hjson : Json.read? number cs = some v) (hv : v.LeadsToNumber)
    (htoml : Toml.read? cs = some t) :
    ∃ n, BracketedNumber n cs ∧ v = .list [.list [Json.ofNumeral number n]] := by
  have hfront : ∀ c ∈ cs.takeWhile Json.isBlank, Json.isBlank c = true := fun _ hc =>
    List.mem_takeWhile_imp hc
  have hcs : cs.takeWhile Json.isBlank ++ Json.skipBlanks cs = cs :=
    List.takeWhile_append_dropWhile
  obtain ⟨⟨v', rest⟩, hvalue, hend⟩ := Option.bind_eq_some_iff.mp hjson
  dsimp only at hend
  split_ifs at hend with hempty
  cases hend
  have hrest : ∀ c ∈ rest, Json.isBlank c = true :=
    List.dropWhile_eq_nil_iff.mp (List.isEmpty_iff.mp hempty)
  rw [← hcs] at htoml ⊢
  generalize cs.takeWhile Json.isBlank = front at hfront htoml ⊢
  rcases Json.scanValue_cases hvalue with ⟨_, tail, _, hopen, -⟩ | ⟨tail, _, hopen, -⟩ | ⟨hnone, -⟩
  · -- a list: a header, and the list in it has to begin at once
    rw [hopen] at hvalue htoml ⊢
    obtain ⟨hfiller, statement, back, hheader, hback⟩ :=
      Toml.statement_of_read? hfront (by rintro _ ⟨⟩; decide) (by decide) htoml
    by_cases htail : ∀ c ∈ tail.head?, c ≠ '['
    · obtain ⟨p, hpath⟩ := Toml.scanPath_of_table htail hheader
      rw [Toml.scanPath_brackets (Json.brackets_of_list hvalue hv)] at hpath
      cases hpath
    obtain ⟨inner, rfl⟩ : ∃ inner, tail = '[' :: inner := by
      cases tail with
      | nil => exact absurd nofun htail
      | cons c inner =>
        refine ⟨inner, ?_⟩
        by_contra hc
        refine htail ?_
        rintro _ ⟨⟩ rfl
        exact hc rfl
    obtain ⟨p, hpath⟩ := Toml.scanPath_of_row hheader
    rcases Json.number_of_list hvalue hv with hbrackets | ⟨n, left, hscan, hn, hleft, hclose⟩
    · rw [Toml.scanPath_brackets hbrackets] at hpath
      cases hpath
    obtain ⟨blanks, run, right, rfl, hblanks, hrun, hplus, hright, rfl⟩ :=
      Toml.run_of_row hscan hn hleft hpath
    obtain ⟨rfl, rfl⟩ := hclose back (Toml.skipBlanks_append_json hright)
    exact ⟨n, .intro hfiller hblanks hrun hn hplus hright (hback hrest), rfl⟩
  · -- a table: no statement begins with a brace
    rw [hopen] at htoml
    obtain ⟨-, _, _, hstatement, -⟩ :=
      Toml.statement_of_read? hfront (by rintro _ ⟨⟩; decide) (by decide) htoml
    rw [Toml.scanStatement_eq_none (by decide) rfl] at hstatement
    cases hstatement
  · exact absurd hv.outer hnone

end ScaraArm.Document
