import Mathlib
import ScaraArm.Proofs.Document.Numerals
import ScaraArm.Proofs.Document.Quotes

/-!
# What is left of a document when it is written and read back

A document is written as JSON so that it can be read again, whatever it consists of: no part
of it makes the text unreadable. But not all of it comes back as it was. A double that is no
number, and whatever a reader only passes over, is written as `null`; a number comes back as
the reader turns its numeral into a number. `reread` says what is left, and the text of a
document is read as just that.
-/

namespace ScaraArm.Document

/-! ## Documents from the inside out -/

namespace Value

/-- Neither a list nor a table. -/
def isPlain : Value → Bool
  | .list _ | .table _ => false
  | _ => true

/-- What holds of plain documents, and of lists and tables when it holds of what is in them,
holds of all documents. -/
@[elab_as_elim]
theorem nested {P : Value → Prop} (plain : ∀ v : Value, v.isPlain = true → P v)
    (list : ∀ items : List Value, (∀ v ∈ items, P v) → P (.list items))
    (table : ∀ entries : List (Key × Value), (∀ e ∈ entries, P e.2) → P (.table entries))
    (v : Value) : P v :=
  @Value.rec P (fun items => ∀ v ∈ items, P v) (fun entries => ∀ e ∈ entries, P e.2)
    (fun e => P e.2)
    (plain _ rfl) (fun _ => plain _ rfl) (fun _ => plain _ rfl) (fun _ => plain _ rfl)
    (fun _ => plain _ rfl) (plain _ rfl) (plain _ rfl) (plain _ rfl)
    (fun items h => list items h) (fun entries h => table entries h)
    nofun (fun _ _ h h' => List.forall_mem_cons.mpr ⟨h, h'⟩)
    nofun (fun _ _ h h' => List.forall_mem_cons.mpr ⟨h, h'⟩)
    (fun _ _ h => h) v

/-! ## What is left -/

/-- The numeral of an integer. -/
def intNumeral (n : Int) : Numeral :=
  ⟨Numeral.signOf (decide (n < 0)), Nat.toDigits 10 n.natAbs, none, none⟩

section

-- how a numeral is turned into a double, if it is in their range
variable (number : Numeral → Option Float)

mutual

/-- What is left of a document when it is written and read back. -/
def reread : Value → Value
  | .null | .instant | .foreign | .unreadable => .null
  | .boolean b => .boolean b
  | .integer n => Json.ofNumeral number (intNumeral n)
  | .real x =>
    match jsonStyle.numeral? x with
    | some n => Json.ofNumeral number n
    | none => .null
  | .text s => .text s
  | .list items => .list (rereadItems items)
  | .table entries => .table (rereadEntries entries)

/-- What is left of the items of a list. -/
def rereadItems : List Value → List Value
  | [] => []
  | v :: rest => v.reread :: rereadItems rest

/-- What is left of the entries of a table. -/
def rereadEntries : List (Key × Value) → List (Key × Value)
  | [] => []
  | entry :: rest => rereadEntry entry :: rereadEntries rest

/-- What is left of an entry. Its key stays. -/
def rereadEntry : Key × Value → Key × Value
  | (key, v) => (key, v.reread)

end

end

end Value

namespace Json

open Value
open Numeral (Ends)

variable {number : Numeral → Option Float}

/-! ## Numbers -/

theorem scanNumber_render {n : Numeral} (h : n.Proper) (hn : isNumber n = true)
    {rest : List Char} (hrest : Ends rest) :
    scanNumber number (n.render ++ rest) = some (ofNumeral number n, rest) := by
  rw [scanNumber, Numeral.scan_render h hrest]
  exact if_pos hn

/-- A numeral begins with a digit or with a sign. -/
theorem render_head {n : Numeral} (h : n.Proper) (hn : isNumber n = true) :
    ∃ c cs, n.render = c :: cs ∧ (c.isDigit = true ∨ c = '-') := by
  obtain ⟨c, cs, hc, hhead⟩ := Numeral.head_of_isNumber h hn
  refine ⟨c, cs ++ (n.fractionChars ++ n.powerChars 'e'), ?_, hhead⟩
  rw [Numeral.render_eq, Numeral.written, ← List.append_assoc, hc]
  rfl

theorem ne_of_render_head {c d : Char} (hc : c.isDigit = true ∨ c = '-')
    (hd : d.isDigit = false) (hminus : d ≠ '-') : c ≠ d := by
  rintro rfl
  rcases hc with hc | hc
  · rw [hd] at hc
    cases hc
  · exact hminus hc

theorem scanValue_number {c : Char} (hc : c.isDigit = true ∨ c = '-') (cs : List Char)
    (fuel : Nat) : scanValue number (fuel + 1) (c :: cs) = scanNumber number (c :: cs) := by
  unfold scanValue
  split
  case h_7 => rfl
  all_goals
    rename_i heq
    exact absurd (List.cons.inj heq).1 (ne_of_render_head hc rfl (by decide))

/-- A numeral in the look of a JSON number is read as what it stands for. -/
theorem scanValue_render {n : Numeral} (h : n.Proper) (hn : isNumber n = true) (fuel : Nat)
    {rest : List Char} (hrest : Ends rest) :
    scanValue number (fuel + 1) (n.render ++ rest) = some (ofNumeral number n, rest) := by
  obtain ⟨c, cs, hrender, hc⟩ := render_head h hn
  rw [← scanNumber_render h hn hrest, hrender]
  exact scanValue_number hc (cs ++ rest) fuel

theorem writeInt_eq (n : Int) : writeInt n = (intNumeral n).render := by
  unfold writeInt intNumeral Numeral.signOf Numeral.render
  by_cases h : n < 0
  · simp [h]
  · simp [h]

theorem isNumber_intNumeral (n : Int) :
    (intNumeral n).Proper ∧ isNumber (intNumeral n) = true :=
  Numeral.isNumber_of_parts _ (Numeral.tidy_toDigits _) nofun nofun nofun

/-! ## Blanks -/

/-- A token begins here, and none that closes a list or a table. -/
def Opens (cs : List Char) : Prop :=
  ∃ c rest, cs = c :: rest ∧ isBlank c = false ∧ c ≠ ']' ∧ c ≠ '}'

theorem Opens.append {cs : List Char} (h : Opens cs) (rest : List Char) : Opens (cs ++ rest) := by
  obtain ⟨c, cs, rfl, hblank, hclose⟩ := h
  exact ⟨c, cs ++ rest, rfl, hblank, hclose⟩

theorem skipBlanks_of_opens {cs : List Char} (h : Opens cs) : skipBlanks cs = cs := by
  obtain ⟨c, rest, rfl, hblank, -⟩ := h
  exact List.dropWhile_cons_of_neg (by rw [hblank]; exact nofun)

theorem opens_render {n : Numeral} (h : n.Proper) (hn : isNumber n = true) : Opens n.render := by
  obtain ⟨c, cs, hrender, hc⟩ := render_head h hn
  refine ⟨c, cs, hrender, ?_, ne_of_render_head hc rfl (by decide),
    ne_of_render_head hc rfl (by decide)⟩
  have hspace : c ≠ ' ' := ne_of_render_head hc rfl (by decide)
  have hline : c ≠ '\n' := ne_of_render_head hc rfl (by decide)
  have htab : c ≠ '\t' := ne_of_render_head hc rfl (by decide)
  have hreturn : c ≠ '\r' := ne_of_render_head hc rfl (by decide)
  simp [isBlank, hspace, hline, htab, hreturn]

theorem opens_write (v : Value) : Opens v.write := by
  cases v with
  | integer n =>
    have := isNumber_intNumeral n
    show Opens (writeInt n)
    rw [writeInt_eq]
    exact opens_render this.1 this.2
  | real x =>
    show Opens (writeFloat x)
    unfold writeFloat
    split
    · rename_i n hn
      have := Decimal.isReal_of_numeral hn
      exact opens_render this.proper this.isNumber
    · exact ⟨'n', _, rfl, rfl, by decide, by decide⟩
  | boolean b => cases b <;> exact ⟨_, _, rfl, rfl, by decide, by decide⟩
  | text s => exact ⟨'"', _, rfl, rfl, by decide, by decide⟩
  | list items => exact ⟨'[', _, rfl, rfl, by decide, by decide⟩
  | table entries => exact ⟨'{', _, rfl, rfl, by decide, by decide⟩
  | null => exact ⟨'n', _, rfl, rfl, by decide, by decide⟩
  | instant => exact ⟨'n', _, rfl, rfl, by decide, by decide⟩
  | foreign => exact ⟨'n', _, rfl, rfl, by decide, by decide⟩
  | unreadable => exact ⟨'n', _, rfl, rfl, by decide, by decide⟩

theorem opens_writeItems {items : List Value} (h : items ≠ []) : Opens (writeItems items) := by
  cases items with
  | nil => exact absurd rfl h
  | cons v rest =>
    cases rest with
    | nil => exact opens_write v
    | cons w rest => exact (opens_write v).append _

theorem ends_cons {c : Char} (h : c = ',' ∨ c = ']' ∨ c = '}') (rest : List Char) :
    Ends (c :: rest) := by
  rintro d ⟨⟩
  rcases h with rfl | rfl | rfl <;> decide

/-! ## Values -/

/-- A document is read as what is left of it, if there is fuel for its characters. -/
def Rereads (number : Numeral → Option Float) (v : Value) : Prop :=
  ∀ (fuel : Nat) (rest : List Char), v.write.length ≤ fuel → Ends rest →
    scanValue number fuel (v.write ++ rest) = some (v.reread number, rest)

theorem rereads_of_isPlain {v : Value} (h : v.isPlain = true) : Rereads number v := by
  intro fuel rest hfuel hrest
  obtain ⟨c, cs, hwrite, -⟩ := opens_write v
  have hpos : 0 < fuel := Nat.lt_of_lt_of_le (by rw [hwrite]; exact Nat.succ_pos _) hfuel
  obtain ⟨fuel, rfl⟩ := Nat.exists_eq_succ_of_ne_zero hpos.ne'
  cases v with
  | null => rfl
  | instant => rfl
  | foreign => rfl
  | unreadable => rfl
  | boolean b => cases b <;> rfl
  | integer n =>
    have := isNumber_intNumeral n
    show scanValue number (fuel + 1) (writeInt n ++ rest) = _
    rw [writeInt_eq]
    exact scanValue_render this.1 this.2 fuel hrest
  | real x =>
    show scanValue number (fuel + 1) (writeFloat x ++ rest) = some (reread number (.real x), rest)
    unfold writeFloat reread
    cases hn : jsonStyle.numeral? x with
    | none => rfl
    | some n =>
      have := Decimal.isReal_of_numeral hn
      exact scanValue_render this.proper this.isNumber fuel hrest
  | text s =>
    obtain ⟨cs, hcs, hscan⟩ := scanQuoted_quoteKey (some s) rest
    show scanValue number (fuel + 1) (quoteKey (some s) ++ rest) = _
    rw [hcs]
    show (scanQuoted cs).map _ = _
    rw [hscan]
    rfl
  | list items => cases h
  | table entries => cases h

/-! ## Lists and tables -/

/-- An item is read, and then what follows it decides. -/
theorem scanItems_step {v : Value} (hv : Rereads number v) {fuel : Nat}
    (hfuel : v.write.length ≤ fuel) {rest : List Char} (hrest : Ends rest) :
    scanItems number (fuel + 1) (v.write ++ rest)
      = match skipBlanks rest with
        | ']' :: rest => some ([v.reread number], rest)
        | ',' :: rest => (scanItems number fuel (skipBlanks rest)).bind fun (items, rest) =>
          some (v.reread number :: items, rest)
        | _ => none := by
  rw [scanItems, hv fuel rest hfuel hrest]
  rfl

/-- The items of a list are read one by one. -/
theorem scanItems_writeItems {items : List Value} (h : ∀ v ∈ items, Rereads number v)
    (hne : items ≠ []) (fuel : Nat) (rest : List Char)
    (hfuel : (writeItems items).length < fuel) :
    scanItems number fuel (writeItems items ++ ']' :: rest)
      = some (rereadItems number items, rest) := by
  induction items generalizing fuel with
  | nil => exact absurd rfl hne
  | cons v items ih =>
    obtain ⟨fuel, rfl⟩ := Nat.exists_eq_succ_of_ne_zero (Nat.ne_zero_of_lt hfuel)
    have hv := h v List.mem_cons_self
    cases items with
    | nil => exact scanItems_step hv (Nat.lt_succ_iff.mp hfuel) (ends_cons (by simp) rest)
    | cons w items =>
      have hne := List.cons_ne_nil w items
      have hlength : (writeItems (v :: w :: items)).length
          = v.write.length + ((writeItems (w :: items)).length + 1) := by
        show (v.write ++ ',' :: writeItems (w :: items)).length = _
        rw [List.length_append, List.length_cons]
      have hrest := ih (fun u hu => h u (List.mem_cons_of_mem v hu)) hne fuel (by omega)
      show scanItems number (fuel + 1)
        ((v.write ++ ',' :: writeItems (w :: items)) ++ ']' :: rest) = _
      rw [List.append_assoc, List.cons_append,
        scanItems_step hv (by omega) (ends_cons (by simp) _)]
      show ((scanItems number fuel (skipBlanks (writeItems (w :: items) ++ ']' :: rest))).bind _)
        = _
      rw [skipBlanks_of_opens ((opens_writeItems hne).append _), hrest]
      rfl

/-- An entry is read, and then what follows it decides. -/
theorem scanEntries_step {key : Key} {v : Value} (hv : Rereads number v) {fuel : Nat}
    (hfuel : v.write.length ≤ fuel) {rest : List Char} (hrest : Ends rest) :
    scanEntries number (fuel + 1) (writeEntry (key, v) ++ rest)
      = match skipBlanks rest with
        | '}' :: rest => some ([(key, v.reread number)], rest)
        | ',' :: rest => (scanEntries number fuel (skipBlanks rest)).bind fun (entries, rest) =>
          some ((key, v.reread number) :: entries, rest)
        | _ => none := by
  obtain ⟨cs, hcs, hscan⟩ := scanQuoted_quoteKey key (':' :: (v.write ++ rest))
  show scanEntries number (fuel + 1) ((quoteKey key ++ ':' :: v.write) ++ rest) = _
  rw [List.append_assoc, List.cons_append, hcs, scanEntries, hscan]
  show ((scanValue number fuel (skipBlanks (v.write ++ rest))).bind _) = _
  rw [skipBlanks_of_opens ((opens_write v).append rest), hv fuel rest hfuel hrest]
  rfl

theorem length_writeEntry (key : Key) (v : Value) :
    v.write.length < (writeEntry (key, v)).length := by
  show _ < (quoteKey key ++ ':' :: v.write).length
  rw [List.length_append, List.length_cons]
  omega

theorem opens_writeEntries {entries : List (Key × Value)} (h : entries ≠ []) :
    Opens (writeEntries entries) := by
  have hentry : ∀ e : Key × Value, Opens (writeEntry e) := by
    rintro ⟨key, v⟩
    obtain ⟨cs, hcs, -⟩ := scanQuoted_quoteKey key (':' :: v.write)
    exact ⟨'"', cs, hcs, rfl, by decide, by decide⟩
  cases entries with
  | nil => exact absurd rfl h
  | cons e rest =>
    cases rest with
    | nil => exact hentry e
    | cons e' rest => exact (hentry e).append _

/-- The entries of a table are read one by one. -/
theorem scanEntries_writeEntries {entries : List (Key × Value)}
    (h : ∀ e ∈ entries, Rereads number e.2) (hne : entries ≠ []) (fuel : Nat) (rest : List Char)
    (hfuel : (writeEntries entries).length < fuel) :
    scanEntries number fuel (writeEntries entries ++ '}' :: rest)
      = some (rereadEntries number entries, rest) := by
  induction entries generalizing fuel with
  | nil => exact absurd rfl hne
  | cons entry entries ih =>
    obtain ⟨key, v⟩ := entry
    obtain ⟨fuel, rfl⟩ := Nat.exists_eq_succ_of_ne_zero (Nat.ne_zero_of_lt hfuel)
    have hv : Rereads number v := h (key, v) List.mem_cons_self
    have hentry := length_writeEntry key v
    cases entries with
    | nil =>
      have hfuel : (writeEntry (key, v)).length < fuel + 1 := hfuel
      exact scanEntries_step hv (by omega) (ends_cons (by simp) rest)
    | cons e entries =>
      have hne := List.cons_ne_nil e entries
      have hlength : (writeEntries ((key, v) :: e :: entries)).length
          = (writeEntry (key, v)).length + ((writeEntries (e :: entries)).length + 1) := by
        show (writeEntry (key, v) ++ ',' :: writeEntries (e :: entries)).length = _
        rw [List.length_append, List.length_cons]
      have hrest := ih (fun u hu => h u (List.mem_cons_of_mem _ hu)) hne fuel (by omega)
      show scanEntries number (fuel + 1)
        ((writeEntry (key, v) ++ ',' :: writeEntries (e :: entries)) ++ '}' :: rest) = _
      rw [List.append_assoc, List.cons_append,
        scanEntries_step hv (by omega) (ends_cons (by simp) _)]
      show ((scanEntries number fuel (skipBlanks (writeEntries (e :: entries) ++ '}' :: rest))).bind
        _) = _
      rw [skipBlanks_of_opens ((opens_writeEntries hne).append _), hrest]
      rfl

theorem scanValue_bracket {cs : List Char} (h : Opens cs) (fuel : Nat) :
    scanValue number (fuel + 1) ('[' :: cs)
      = (scanItems number fuel cs).map fun (items, rest) => (.list items, rest) := by
  rw [scanValue, skipBlanks_of_opens h]
  obtain ⟨c, cs, rfl, -, hclose, -⟩ := h
  split
  · rename_i heq
    exact absurd (List.cons.inj heq).1 hclose
  · rfl

theorem scanValue_brace {cs : List Char} (h : Opens cs) (fuel : Nat) :
    scanValue number (fuel + 1) ('{' :: cs)
      = (scanEntries number fuel cs).map fun (entries, rest) => (.table entries, rest) := by
  rw [scanValue, skipBlanks_of_opens h]
  obtain ⟨c, cs, rfl, -, -, hclose⟩ := h
  split
  · rename_i heq
    exact absurd (List.cons.inj heq).1 hclose
  · rfl

theorem rereads_list {items : List Value} (h : ∀ v ∈ items, Rereads number v) :
    Rereads number (.list items) := by
  intro fuel rest hfuel _
  have hlength : ('[' :: (writeItems items ++ [']'])).length ≤ fuel := hfuel
  rw [List.length_cons, List.length_append, List.length_singleton] at hlength
  obtain ⟨fuel, rfl⟩ := Nat.exists_eq_succ_of_ne_zero (show fuel ≠ 0 by omega)
  show scanValue number (fuel + 1) ('[' :: (writeItems items ++ [']']) ++ rest) = _
  by_cases hne : items = []
  · rw [hne]
    rfl
  · rw [List.cons_append, List.append_assoc, List.singleton_append,
      scanValue_bracket ((opens_writeItems hne).append _),
      scanItems_writeItems h hne fuel rest (by omega)]
    rfl

theorem rereads_table {entries : List (Key × Value)} (h : ∀ e ∈ entries, Rereads number e.2) :
    Rereads number (.table entries) := by
  intro fuel rest hfuel _
  have hlength : ('{' :: (writeEntries entries ++ ['}'])).length ≤ fuel := hfuel
  rw [List.length_cons, List.length_append, List.length_singleton] at hlength
  obtain ⟨fuel, rfl⟩ := Nat.exists_eq_succ_of_ne_zero (show fuel ≠ 0 by omega)
  show scanValue number (fuel + 1) ('{' :: (writeEntries entries ++ ['}']) ++ rest) = _
  by_cases hne : entries = []
  · rw [hne]
    rfl
  · rw [List.cons_append, List.append_assoc, List.singleton_append,
      scanValue_brace ((opens_writeEntries hne).append _),
      scanEntries_writeEntries h hne fuel rest (by omega)]
    rfl

/-- **Every document is read as what is left of it.** -/
theorem rereads (v : Value) : Rereads number v := by
  induction v using Value.nested with
  | plain v h => exact rereads_of_isPlain h
  | list items h => exact rereads_list h
  | table entries h => exact rereads_table h

/-- **The text of a document is read as what is left of the document.** -/
theorem parse_toJson (number : Numeral → Option Float) (v : Value) :
    parseWith? number v.toJson = some (v.reread number) := by
  have hv : Rereads number v := rereads v
  have hread := hv (v.write.length + 1) [] (Nat.le_succ _) nofun
  rw [List.append_nil] at hread
  rw [parseWith?, toJson, String.toList_ofList, read?, skipBlanks_of_opens (opens_write v), hread]
  rfl

end Json

end ScaraArm.Document
