import Mathlib
import ScaraArm.Config.Decode
import ScaraArm.Proofs.Document.JsonRoundTrip

/-!
# Fields of a document, read and written

Two views of the fields of a document meet here. A reader sees names and positions: `Holds`
says what a document has there, and whatever was read successfully was read from there. A
writer sees a table in which every field has its proper documents: a table `Gives` its fields
if none is there twice, those that are there are as they should be, and only those are missing
that may be. Other names may stand between them. Reading such a table back finds just what it
gives.
-/

namespace ScaraArm.Document

variable {α β : Type} {format : Config.Format} {names : List String} {v w : Value}

theorem mapM_eq_some_iff {f : α → Option β} {xs : List α} {ys : List β} :
    xs.mapM f = some ys ↔ List.Forall₂ (fun x y => f x = some y) xs ys := by
  induction xs generalizing ys with
  | nil => simp [eq_comm]
  | cons x xs ih =>
    rw [List.mapM_cons, List.forall₂_cons_left_iff]
    simp only [Option.bind_eq_bind, Option.bind_eq_some_iff, ih]
    constructor
    · rintro ⟨y, hy, ys', hys, ⟨⟩⟩
      exact ⟨y, ys', hy, hys, rfl⟩
    · rintro ⟨y, ys', hy, hys, rfl⟩
      exact ⟨y, hy, ys', hys, rfl⟩

/-! ## What a document holds -/

/-- What a document has under a name of its table or, written as a list, at the position of
the name. -/
def Holds (name : String) (position : Nat) : Value → Value → Prop
  | .table entries, w => (some name, w) ∈ entries
  | .list items, w => items[position]? = some w
  | _, _ => False

theorem holds_record {entries : List (String × Value)} {name : String} {i : Nat} :
    Holds name i (.record entries) w ↔ (name, w) ∈ entries := by
  show (some name, w) ∈ entries.map _ ↔ _
  simp [List.mem_map]

theorem lookup_eq_some_iff_mem {entries : List (String × Value)}
    (h : (entries.map (·.1)).Nodup) {name : String} :
    entries.lookup name = some w ↔ (name, w) ∈ entries := by
  induction entries with
  | nil => simp
  | cons e entries ih =>
    obtain ⟨key, u⟩ := e
    obtain ⟨hkey, hnodup⟩ := List.nodup_cons.mp h
    rw [List.lookup_cons, List.mem_cons, Prod.mk.injEq]
    by_cases heq : name = key
    · subst heq
      rw [beq_self_eq_true]
      have hmem : (name, w) ∉ entries := fun hmem => hkey (List.mem_map.mpr ⟨_, hmem, rfl⟩)
      simp [hmem, eq_comm]
    · rw [beq_false_of_ne heq, ih hnodup]
      simp [heq]

theorem lookup_zip (hnodup : names.Nodup) {name : String} {i : Nat}
    (hi : names[i]? = some name) (items : List Value) :
    (names.zip items).lookup name = items[i]? := by
  induction names generalizing i items with
  | nil => cases hi
  | cons n names ih =>
    obtain ⟨hn, hnodup⟩ := List.nodup_cons.mp hnodup
    cases items with
    | nil => rfl
    | cons u items =>
      rw [List.zip_cons_cons, List.lookup_cons]
      cases i with
      | zero =>
        obtain rfl : n = name := Option.some.inj hi
        rw [beq_self_eq_true]
        rfl
      | succ i =>
        have hmem : name ∈ names := List.mem_of_getElem? hi
        have hne : name ≠ n := by
          rintro rfl
          exact hn hmem
        rw [beq_false_of_ne hne]
        exact ih hnodup hi items

/-- A table of text keys is read by sorting its entries. -/
theorem fields_record (entries : List (String × Value)) :
    fields? format names (.record entries)
      = if ((entries.filter fun e => names.contains e.1).map (·.1)).Nodup ∧
          (entries.filter (not ∘ fun e => names.contains e.1)).all (·.2.isReadable)
        then some (entries.filter fun e => names.contains e.1) else none := by
  have hmap : (entries.map fun e => (some e.1, e.2)).mapM
      (fun e : Key × Value => e.1.map (·, e.2)) = some entries := by
    rw [List.mapM_map]
    exact List.mapM_pure.trans (congrArg some (List.map_id entries))
  show (((entries.map fun e => (some e.1, e.2)).mapM
    fun e : Key × Value => e.1.map (·, e.2)).bind _) = _
  rw [hmap, Option.bind_some, List.partition_eq_filter_filter]

/-- Only tables of text keys are read. -/
theorem record_of_fields {entries : List (Key × Value)} {known : List (String × Value)}
    (h : fields? format names (.table entries) = some known) :
    ∃ texts, Value.table entries = .record texts := by
  obtain ⟨texts, htexts, -⟩ := Option.bind_eq_some_iff.mp h
  refine ⟨texts, congrArg Value.table ?_⟩
  rw [mapM_eq_some_iff] at htexts
  clear h
  induction htexts with
  | nil => rfl
  | @cons e e' entries texts he hentries ih =>
    obtain ⟨key, v⟩ := e
    obtain ⟨k, rfl, rfl⟩ := Option.map_eq_some_iff.mp he
    rw [List.map_cons, ih]

/-- **A field that was read was read from what the document holds there.** -/
theorem lookup_of_fields (hnodup : names.Nodup) {known : List (String × Value)}
    (h : fields? format names v = some known) {name : String} {i : Nat}
    (hi : names[i]? = some name) : known.lookup name = some w ↔ Holds name i v w := by
  cases v with
  | instant =>
    obtain rfl : [] = known := Option.some.inj h
    exact ⟨nofun, nofun⟩
  | list items =>
    have h : (if format = .toml ∨ items.length ≤ names.length then some (names.zip items)
      else none) = some known := h
    split_ifs at h
    obtain rfl : names.zip items = known := Option.some.inj h
    rw [lookup_zip hnodup hi]
    rfl
  | table entries =>
    obtain ⟨texts, htexts⟩ := record_of_fields h
    rw [htexts, fields_record] at h
    split_ifs at h with hknown
    obtain rfl := Option.some.inj h
    have hmem : name ∈ names := List.mem_of_getElem? hi
    rw [htexts, holds_record, lookup_eq_some_iff_mem hknown.1]
    simp [hmem]
  | _ => cases h

section

variable {known : List (String × Value)} {name : String} {i : Nat} {x : α}
  {decode : Value → Option α}

/-- A field that has to be there was there and was read. -/
theorem decode_of_required (hnodup : names.Nodup) (h : fields? format names v = some known)
    (hi : names[i]? = some name) (hread : required known name decode = some x) :
    (∃ w, Holds name i v w) ∧ ∀ w, Holds name i v w → decode w = some x := by
  obtain ⟨u, hu, hdecode⟩ := Option.bind_eq_some_iff.mp hread
  refine ⟨⟨u, (lookup_of_fields hnodup h hi).mp hu⟩, fun w hw => ?_⟩
  rw [(lookup_of_fields hnodup h hi).mpr hw] at hu
  rwa [Option.some.inj hu]

/-- A field that may be left out was not passed over. -/
theorem decode_of_withDefault (hnodup : names.Nodup) (h : fields? format names v = some known)
    (hi : names[i]? = some name) {usual : α}
    (hread : withDefault known name usual decode = some x) (hw : Holds name i v w) :
    decode w = some x := by
  unfold withDefault at hread
  rwa [(lookup_of_fields hnodup h hi).mpr hw] at hread

/-- What a field that may be left out has been read as stands in the document or is usual. -/
theorem source_of_withDefault (hnodup : names.Nodup) (h : fields? format names v = some known)
    (hi : names[i]? = some name) {usual : α} (hread : withDefault known name usual decode = some x) :
    (∃ w, Holds name i v w ∧ decode w = some x) ∨ x = usual := by
  unfold withDefault at hread
  cases hw : known.lookup name with
  | some w =>
    rw [hw] at hread
    exact Or.inl ⟨w, (lookup_of_fields hnodup h hi).mp hw, hread⟩
  | none =>
    rw [hw] at hread
    exact Or.inr (Option.some.inj hread).symm

end

/-! ## What a table gives -/

/-- One of the fields that a document is to have. -/
structure Field where
  name : String
  /-- The documents that it may be written as. -/
  admits : Value → Prop
  /-- Whether it may be left out. -/
  optional : Prop

/-- A table gives its fields: none of them twice, each as it should be, and only those not at
all that may be left out. What else the table has, and in what order, does not matter. -/
structure Gives (fields : List Field) (entries : List (String × Value)) : Prop where
  once : ∀ f ∈ fields, (entries.map (·.1)).count f.name ≤ 1
  admits : ∀ f ∈ fields, ∀ v, (f.name, v) ∈ entries → f.admits v
  optional : ∀ f ∈ fields, (∀ v, (f.name, v) ∉ entries) → f.optional

/-- A table that gives the fields, whatever else it has. -/
def IsTableOf (fields : List Field) (v : Value) : Prop :=
  ∃ entries, v = .record entries ∧ Gives fields entries

/-- A table of just the fields, in order, gives them. -/
theorem isTableOf_of_forall₂ {fields : List Field} {entries : List (String × Value)}
    (hnodup : (fields.map Field.name).Nodup)
    (h : List.Forall₂ (fun f e => f.name = e.1 ∧ f.admits e.2) fields entries) :
    IsTableOf fields (.record entries) := by
  have hkeys : fields.map Field.name = entries.map (·.1) := by
    clear hnodup
    induction h with
    | nil => rfl
    | cons he _ ih => rw [List.map_cons, List.map_cons, he.1, ih]
  have hfield : ∀ e ∈ entries, ∃ f ∈ fields, f.name = e.1 ∧ f.admits e.2 := by
    clear hnodup hkeys
    induction h with
    | nil => exact nofun
    | cons he _ ih =>
      refine List.forall_mem_cons.mpr ⟨⟨_, List.mem_cons_self, he⟩, fun e hmem => ?_⟩
      obtain ⟨f, hf, he⟩ := ih e hmem
      exact ⟨f, List.mem_cons_of_mem _ hf, he⟩
  refine ⟨entries, rfl, fun f _ => ?_, fun f hf v hv => ?_, fun f hf hnone => ?_⟩
  · rw [← hkeys]
    exact List.nodup_iff_count_le_one.mp hnodup f.name
  · obtain ⟨f', hf', hname, hadmits⟩ := hfield _ hv
    rwa [← List.inj_on_of_nodup_map hnodup hf' hf hname]
  · have hname : f.name ∈ entries.map (·.1) := hkeys ▸ List.mem_map_of_mem hf
    obtain ⟨⟨key, v⟩, hmem, rfl⟩ := List.mem_map.mp hname
    exact absurd hmem (hnone v)

/-! ## Reading it back -/

section

variable {number : Numeral → Option Float}

/-- What is left of the entries of a table of text keys. -/
def rereadTexts (number : Numeral → Option Float) (entries : List (String × Value)) :
    List (String × Value) :=
  entries.map fun e => (e.1, e.2.reread number)

theorem reread_record (entries : List (String × Value)) :
    (Value.record entries).reread number = .record (rereadTexts number entries) := by
  show Value.table (Value.rereadEntries number (entries.map _)) = .table _
  congr 1
  induction entries with
  | nil => rfl
  | cons e entries ih => exact congrArg (_ :: ·) ih

/-- What is left of an entry stands where the entry stood. -/
theorem holds_reread {entries : List (String × Value)} {name : String} {u : Value} (i : Nat)
    (h : entries[i]? = some (name, u)) :
    Holds name i ((Value.record entries).reread number) (u.reread number) := by
  rw [reread_record, holds_record]
  exact List.mem_map.mpr ⟨(name, u), List.mem_of_getElem? h, rfl⟩

theorem rereadItems_eq (items : List Value) :
    Value.rereadItems number items = items.map (Value.reread number) := by
  induction items with
  | nil => rfl
  | cons v items ih => exact congrArg (_ :: ·) ih

theorem isReadable_ofNumeral (n : Numeral) : (Json.ofNumeral number n).isReadable = true := by
  unfold Json.ofNumeral
  dsimp only
  split_ifs
  · rfl
  · split <;> rfl

/-- A reader can pass over whatever is left of a document. -/
theorem isReadable_reread (v : Value) : (v.reread number).isReadable = true := by
  induction v using Value.nested with
  | plain v h =>
    cases v with
    | integer n => exact isReadable_ofNumeral _
    | real x =>
      unfold Value.reread
      split
      · exact isReadable_ofNumeral _
      · rfl
    | list items => cases h
    | table entries => cases h
    | _ => rfl
  | list items h =>
    show Value.areReadable (Value.rereadItems number items) = true
    rw [rereadItems_eq]
    induction items with
    | nil => rfl
    | cons v items ih =>
      obtain ⟨hv, hitems⟩ := List.forall_mem_cons.mp h
      exact Bool.and_eq_true_iff.mpr ⟨hv, ih hitems⟩
  | table entries h =>
    show Value.entriesAreReadable (Value.rereadEntries number entries) = true
    induction entries with
    | nil => rfl
    | cons e entries ih =>
      obtain ⟨key, v⟩ := e
      obtain ⟨hv, hentries⟩ := List.forall_mem_cons.mp h
      exact Bool.and_eq_true_iff.mpr ⟨hv, ih hentries⟩

/-- Under the names of the fields stands what is left of what the table has there. -/
def Finds (number : Numeral → Option Float) (fields : List Field)
    (entries known : List (String × Value)) : Prop :=
  ∀ f ∈ fields, ∀ w, known.lookup f.name = some w
    ↔ ∃ v, (f.name, v) ∈ entries ∧ v.reread number = w

variable {fields : List Field} {entries known : List (String × Value)}

/-- **Reading back a table that gives its fields finds them.** -/
theorem Gives.fields_eq (h : Gives fields entries) (format : Config.Format) :
    ∃ known, fields? format (fields.map Field.name) ((Value.record entries).reread number)
        = some known ∧ Finds number fields entries known := by
  have hkeys : (rereadTexts number entries).map (·.1) = entries.map (·.1) := by
    rw [rereadTexts, List.map_map]
    rfl
  -- no name of a field is twice among the keys, so sorting out the others leaves no key twice
  have hnodup : (((rereadTexts number entries).filter
      fun e => (fields.map Field.name).contains e.1).map (·.1)).Nodup := by
    rw [List.nodup_iff_count_le_one]
    intro name
    by_cases hname : name ∈ fields.map Field.name
    · obtain ⟨f, hf, rfl⟩ := List.mem_map.mp hname
      have hsub := (List.filter_sublist (l := rereadTexts number entries)
        (p := fun e => (fields.map Field.name).contains e.1)).map (·.1)
      rw [hkeys] at hsub
      exact (hsub.count_le f.name).trans (h.once f hf)
    · rw [List.count_eq_zero_of_not_mem]
      · exact Nat.zero_le 1
      · simp_all
  have hreadable : ((rereadTexts number entries).filter
      (not ∘ fun e => (fields.map Field.name).contains e.1)).all (·.2.isReadable) = true := by
    rw [List.all_eq_true]
    intro e he
    obtain ⟨e', -, rfl⟩ := List.mem_map.mp (List.mem_of_mem_filter he)
    exact isReadable_reread e'.2
  refine ⟨_, by rw [reread_record, fields_record, if_pos ⟨hnodup, hreadable⟩], ?_⟩
  intro f hf w
  have hname : f.name ∈ fields.map Field.name := List.mem_map_of_mem hf
  rw [lookup_eq_some_iff_mem hnodup]
  simp only [List.mem_filter, rereadTexts, List.mem_map, Prod.mk.injEq]
  constructor
  · rintro ⟨⟨⟨key, v⟩, hmem, rfl, hv⟩, -⟩
    exact ⟨v, hmem, hv⟩
  · rintro ⟨v, hmem, hv⟩
    exact ⟨⟨⟨f.name, v⟩, hmem, rfl, hv⟩, by simpa using hname⟩

section

variable {name : String} {admits : Value → Prop} {optional : Prop} {x : α}
  {decode : Value → Option α}

/-- A field that may not be left out is read. -/
theorem Gives.required_eq (h : Gives fields entries) (hfinds : Finds number fields entries known)
    (i : Nat) (hi : fields[i]? = some ⟨name, admits, False⟩)
    (hadmits : ∀ v, admits v → decode (v.reread number) = some x) :
    required known name decode = some x := by
  have hf := List.mem_of_getElem? hi
  obtain ⟨v, hv⟩ : ∃ v, (name, v) ∈ entries := by
    by_contra hnone
    exact h.optional _ hf (not_exists.mp hnone)
  unfold required
  rw [(hfinds _ hf _).mpr ⟨v, hv, rfl⟩]
  exact hadmits v (h.admits _ hf v hv)

/-- A field is read, or it is left out and has its usual value. -/
theorem Gives.withDefault_eq (h : Gives fields entries)
    (hfinds : Finds number fields entries known) (i : Nat)
    (hi : fields[i]? = some ⟨name, admits, optional⟩) {usual : α}
    (hadmits : ∀ v, admits v → decode (v.reread number) = some x)
    (hoptional : optional → usual = x) : withDefault known name usual decode = some x := by
  have hf := List.mem_of_getElem? hi
  unfold withDefault
  cases hw : known.lookup name with
  | some w =>
    obtain ⟨v, hv, rfl⟩ := (hfinds _ hf w).mp hw
    exact hadmits v (h.admits _ hf v hv)
  | none =>
    refine congrArg some (hoptional (h.optional _ hf fun v hv => ?_))
    have hsome := (hfinds _ hf _).mpr ⟨v, hv, rfl⟩
    rw [hw] at hsome
    cases hsome

end

end

end ScaraArm.Document
