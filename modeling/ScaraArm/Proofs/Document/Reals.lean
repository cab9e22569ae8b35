import Mathlib
import ScaraArm.Document.Json
import ScaraArm.Proofs.Binary64.Bounded

/-!
# The real numbers of a document

A document contains the doubles that stand in it, however deep. What reading JSON puts there are
doubles of numerals and nothing else (`Json.exists_numeral`), and a numeral that is turned into a
double in steps becomes a finite one or none at all:

* a word of digits and a power of ten are far below the largest double (`isFinite_ofInt`);
* a quotient by a power of ten is no larger than what is divided (`isFinite_div`);
* a product by a power of ten can grow too large, and is looked at before it is taken.

So nothing that is read from JSON is infinite or undefined, and no caller has to ask.
-/

namespace ScaraArm

open Binary64

/-! ## Numerals in steps -/

namespace Binary64

/-- Integers of up to three hundred digits are far below the largest double. -/
theorem isFinite_ofInt {n : Int} (h : n.natAbs ≤ 10 ^ 308) : (ofInt n).isFinite = true := by
  have hceiling : Dyadic (3 * 2 ^ (1022 : ℤ)) :=
    dyadic_iff.mpr ⟨3, 1022, by norm_num, by norm_num, by norm_num⟩
  have hle : |(n : ℝ)| ≤ 3 * 2 ^ (1022 : ℤ) := by
    have hpow : 10 ^ 308 ≤ 3 * 2 ^ 1022 := by decide +kernel
    calc |(n : ℝ)| = (n.natAbs : ℝ) := by rw [Nat.cast_natAbs, Int.cast_abs]
      _ ≤ (3 * 2 ^ 1022 : ℕ) := Nat.cast_le.mpr (h.trans hpow)
      _ = 3 * 2 ^ (1022 : ℤ) := by
        rw [Nat.cast_mul, Nat.cast_pow, Nat.cast_ofNat, Nat.cast_ofNat]
        rfl
  have hlt : (3 : ℝ) * 2 ^ (1022 : ℤ) < 2 ^ 1024 := by
    rw [two_pow_1024 2]
    norm_num
  exact (bounded_of_dyadic (isNumber_ofInt n) (value_ofInt_eq n) hle hceiling hlt).isFinite

/-- Dividing by a number that is not below one makes nothing larger. -/
theorem isFinite_div {x y : Float} (hx : x.isFinite = true) (hy : y.isFinite = true)
    (hone : 1 ≤ value y) : (x / y).isFinite = true := by
  have hne : value y ≠ 0 := (zero_lt_one.trans_le hone).ne'
  have hquotient := value_div hx hy hne
  obtain ⟨r, hr, hdyadic, hlt⟩ := exists_real hx
  obtain ⟨a, ha, -⟩ := exists_real hy
  rw [hr, ha, ← EReal.coe_div] at hquotient
  have hle : |r / a| ≤ |r| := by
    rw [ha] at hone
    have hone : 1 ≤ a := by exact_mod_cast hone
    rw [abs_div]
    exact div_le_self (abs_nonneg r) (hone.trans (le_abs_self a))
  have hnumber := isNumber_div (isNumber_of_isFinite hx) hy hne
  refine (bounded_of_nearest hnumber hquotient hle ?_).isFinite
  rwa [← abs_snap, snap_of_dyadic hdyadic]

end Binary64

namespace Numeral

theorem size_le : UInt64.size ≤ 10 ^ 308 := by decide +kernel

/-- The digits that go into a word stay below its size. -/
theorem fillWord_lt {word : Nat} (h : word < UInt64.size) (digits : List Char) :
    (fillWord word digits).1 < UInt64.size := by
  induction digits generalizing word with
  | nil => exact h
  | cons c digits ih =>
    unfold fillWord
    dsimp only
    split_ifs with hnext
    · exact ih hnext
    · exact h

theorem leading_lt (n : Numeral) : n.leading.1 < UInt64.size :=
  fillWord_lt (fillWord_lt (by decide) _) _

/-- The powers of ten among the doubles are finite, and none is below one. -/
theorem powerOfTen_spec {k : Nat} (h : k ≤ maxPower) :
    (powerOfTen k).isFinite = true ∧ 1 ≤ value (powerOfTen k) := by
  have hlow : (1 : ℤ) ≤ (10 ^ k : ℕ) := by exact_mod_cast Nat.one_le_pow k 10 (by decide)
  have hhigh : 10 ^ k ≤ 10 ^ 308 := pow_le_pow_right₀ (by decide) h
  refine ⟨isFinite_ofInt (n := (10 ^ k : ℕ)) hhigh, ?_⟩
  calc (1 : EReal) = nearest ((1 : ℤ) : ℝ) := by
        rw [← value_ofInt_eq, value_ofInt (by norm_num)]
        norm_num
    _ ≤ nearest (((10 ^ k : ℕ) : ℤ) : ℝ) := nearest_mono (by exact_mod_cast hlow)
    _ = value (powerOfTen k) := (value_ofInt_eq _).symm

theorem isFinite_div_powerOfTen {x : Float} (hx : x.isFinite = true) {k : Nat}
    (h : k ≤ maxPower) : (x / powerOfTen k).isFinite = true :=
  isFinite_div hx (powerOfTen_spec h).1 (powerOfTen_spec h).2

/-- A finite double times a power of ten is finite, if it is taken at all. -/
theorem isFinite_of_scale {x y : Float} (hx : x.isFinite = true) {power : Int}
    (h : scale? x power = some y) : y.isFinite = true := by
  unfold scale? at h
  dsimp only at h
  split_ifs at h with htiny hneg hhigh hfin hzero
  · cases h
    exact isFinite_div_powerOfTen (isFinite_div_powerOfTen hx le_rfl) (min_le_left _ _)
  · cases h
    exact isFinite_div_powerOfTen hx (by omega)
  · cases h
    exact hfin
  · cases h
    exact hx

/-- **A numeral that is read in steps is a finite double.** -/
theorem isFinite_of_stepwise {n : Numeral} {x : Float} (h : n.stepwise? = some x) :
    x.isFinite = true := by
  obtain ⟨y, hy, rfl⟩ := Option.map_eq_some_iff.mp h
  have hword : n.leading.1 ≤ 10 ^ 308 := (leading_lt n).le.trans size_le
  have hfin := isFinite_of_scale (isFinite_ofInt (n := n.leading.1) hword) hy
  split_ifs
  · rwa [isFinite_neg]
  · exact hfin

end Numeral

namespace Document

/-! ## What a document contains -/

/-- A double stands somewhere in a document. -/
inductive Value.Contains (x : Float) : Value → Prop
  | real : Contains x (.real x)
  | item {items : List Value} {v : Value} : v ∈ items → Contains x v → Contains x (.list items)
  | entry {entries : List (Key × Value)} {e : Key × Value} :
      e ∈ entries → Contains x e.2 → Contains x (.table entries)

/-- All doubles of a document are finite. -/
def Value.IsFinite (v : Value) : Prop := ∀ x : Float, v.Contains x → x.isFinite = true

/-- The number of a finite document is finite, also if it is written as an integer. -/
theorem Value.IsFinite.float {v : Value} (hv : v.IsFinite) {x : Float} (h : v.float? = some x) :
    x.isFinite = true := by
  cases v with
  | integer n =>
    have h : (if fitsWord n = true then some (ofInt n) else none) = some x := h
    split_ifs at h with hword
    cases h
    obtain ⟨hlow, hhigh⟩ := of_decide_eq_true hword
    rw [Int64.toInt_minValue] at hlow
    have hsize : UInt64.size = 2 ^ 64 := rfl
    have hword : n.natAbs ≤ UInt64.size := by omega
    exact isFinite_ofInt (hword.trans Numeral.size_le)
  | real y =>
    cases h
    exact hv x .real
  | _ => cases h

namespace Json

variable {number : Numeral → Option Float} {v : Value} {x : Float}

/-- The double of a numeral. -/
def IsRead (number : Numeral → Option Float) (x : Float) : Prop := ∃ n, number n = some x

theorem isRead_ofNumeral {n : Numeral} (h : (ofNumeral number n).Contains x) :
    IsRead number x := by
  unfold ofNumeral at h
  dsimp only at h
  split_ifs at h
  · cases h
  · cases hn : number n with
    | none =>
      rw [hn] at h
      cases h
    | some y =>
      rw [hn] at h
      cases h
      exact ⟨n, hn⟩

/-- What is read at the head of a text, with the given fuel, contains doubles of numerals only. -/
structure ReadsNumerals (number : Numeral → Option Float) (fuel : Nat) : Prop where
  value : ∀ {cs v rest}, scanValue number fuel cs = some (v, rest) →
    ∀ x, v.Contains x → IsRead number x
  items : ∀ {cs items rest}, scanItems number fuel cs = some (items, rest) →
    ∀ v ∈ items, ∀ x, v.Contains x → IsRead number x
  entries : ∀ {cs entries rest}, scanEntries number fuel cs = some (entries, rest) →
    ∀ e ∈ entries, ∀ x, e.2.Contains x → IsRead number x

theorem isRead_scanNumber {cs rest : List Char} (h : scanNumber number cs = some (v, rest))
    (hx : v.Contains x) : IsRead number x := by
  unfold scanNumber at h
  dsimp only at h
  split_ifs at h
  cases h
  exact isRead_ofNumeral hx

theorem ReadsNumerals.value_succ {fuel : Nat} (ih : ReadsNumerals number fuel)
    {cs rest : List Char} (h : scanValue number (fuel + 1) cs = some (v, rest))
    (hx : v.Contains x) : IsRead number x := by
  unfold scanValue at h
  split at h
  · cases h; cases hx
  · cases h; cases hx
  · cases h; cases hx
  · obtain ⟨⟨key, left⟩, -, hv⟩ := Option.map_eq_some_iff.mp h
    cases key <;> cases hv <;> cases hx
  · split at h
    · cases h
      cases hx with
      | item hv => cases hv
    · obtain ⟨⟨items, left⟩, hitems, hv⟩ := Option.map_eq_some_iff.mp h
      cases hv
      cases hx with
      | item hv hx => exact ih.items hitems _ hv x hx
  · split at h
    · cases h
      cases hx with
      | entry he => cases he
    · obtain ⟨⟨entries, left⟩, hentries, hv⟩ := Option.map_eq_some_iff.mp h
      cases hv
      cases hx with
      | entry he hx => exact ih.entries hentries _ he x hx
  · exact isRead_scanNumber h hx

theorem ReadsNumerals.items_succ {fuel : Nat} (ih : ReadsNumerals number fuel)
    {cs rest : List Char} {items : List Value}
    (h : scanItems number (fuel + 1) cs = some (items, rest)) (hv : v ∈ items)
    (hx : v.Contains x) : IsRead number x := by
  unfold scanItems at h
  obtain ⟨⟨w, left⟩, hw, h⟩ := Option.bind_eq_some_iff.mp h
  dsimp only at h
  split at h
  · cases h
    rw [List.mem_singleton.mp hv] at hx
    exact ih.value hw x hx
  · obtain ⟨⟨more, left'⟩, hmore, h⟩ := Option.bind_eq_some_iff.mp h
    cases h
    rcases List.mem_cons.mp hv with rfl | hv
    · exact ih.value hw x hx
    · exact ih.items hmore v hv x hx
  · cases h

theorem ReadsNumerals.entries_succ {fuel : Nat} (ih : ReadsNumerals number fuel)
    {cs rest : List Char} {entries : List (Key × Value)}
    (h : scanEntries number (fuel + 1) cs = some (entries, rest)) {e : Key × Value}
    (he : e ∈ entries) (hx : e.2.Contains x) : IsRead number x := by
  unfold scanEntries at h
  split at h
  · obtain ⟨⟨key, left⟩, -, h⟩ := Option.bind_eq_some_iff.mp h
    dsimp only at h
    split at h
    · obtain ⟨⟨w, left'⟩, hw, h⟩ := Option.bind_eq_some_iff.mp h
      dsimp only at h
      split at h
      · cases h
        rw [List.mem_singleton.mp he] at hx
        exact ih.value hw x hx
      · obtain ⟨⟨more, left''⟩, hmore, h⟩ := Option.bind_eq_some_iff.mp h
        cases h
        rcases List.mem_cons.mp he with rfl | he
        · exact ih.value hw x hx
        · exact ih.entries hmore e he x hx
      · cases h
    · cases h
  · cases h

theorem readsNumerals (number : Numeral → Option Float) (fuel : Nat) :
    ReadsNumerals number fuel := by
  induction fuel with
  | zero => constructor <;> (intro _ _ _ h; cases h)
  | succ fuel ih =>
    exact ⟨fun h _ => ih.value_succ h, fun h _ hv _ => ih.items_succ h hv,
      fun h _ he _ => ih.entries_succ h he⟩

/-- **Every double of a document that is read from JSON is the double of a numeral.** -/
theorem exists_numeral {s : String} (h : parseWith? number s = some v) (hx : v.Contains x) :
    IsRead number x := by
  obtain ⟨⟨w, rest⟩, hw, h⟩ := Option.bind_eq_some_iff.mp h
  dsimp only at h
  split_ifs at h
  cases h
  exact (readsNumerals number _).value hw x hx

/-- **What is read from JSON is finite.** -/
theorem isFinite_of_parse {s : String} (h : parse? s = some v) : v.IsFinite := by
  intro x hx
  obtain ⟨n, hn⟩ := exists_numeral h hx
  exact Numeral.isFinite_of_stepwise hn

end Json

end Document

end ScaraArm
