import Mathlib
import ScaraArm.Proofs.Decimal.Interval

/-!
# The best decimals in an interval

Decimals of some number of digits are the multiples of a power of ten, the grid of that many digits.
The search tries the grids of one digit, of two and so on, and on each it looks at the two
neighbours of the double only. That is enough: an interval that holds a decimal of the grid also
holds the neighbour on the same side, because it holds the double itself.

* On the grid of seventeen digits there is always a hit: its decimals lie closer together than the
  interval is wide (`exists_mem_seventeen`). So the search finds a decimal for every double.
* A decimal with fewer digits than the one that is found would have been a hit on an earlier grid.
  If it is too fine for that grid, it is so small that a power of ten lies between it and the double
  (`exists_mem_grid`).
* Of all decimals with no more digits the one that is found is the nearest.
-/

namespace ScaraArm.Decimal

open Binary64

variable {tie : Tie} {negative : Bool} {m : Nat} {e q : Int} {c : Nat}

/-! ## Magnitudes -/

/-- Two powers are compared as two others that are known, if their exponents are smaller and larger
than those in proportion. -/
theorem zpow_le_zpow_of_pow_le {x y : ℝ} {i j : ℕ} {k b : ℤ} (hx : 1 ≤ x) (hy : 0 < y) (hj : j ≠ 0)
    (hb : 0 ≤ b) (hpow : x ^ i ≤ y ^ j) (h : j * k ≤ i * b) : x ^ k ≤ y ^ b := by
  have hx0 : 0 < x := one_pos.trans_le hx
  refine (pow_le_pow_iff_left₀ (by positivity) (by positivity) hj).mp ?_
  calc (x ^ k) ^ j = x ^ (j * k : ℤ) := by rw [← zpow_natCast, ← zpow_mul, mul_comm]
    _ ≤ x ^ (i * b : ℤ) := zpow_le_zpow_right₀ hx h
    _ = (x ^ i) ^ b := by rw [zpow_mul, zpow_natCast]
    _ ≤ (y ^ j) ^ b := zpow_le_zpow_left₀ hb (by positivity) hpow
    _ = (y ^ b) ^ j := by
        rw [← zpow_natCast, ← zpow_natCast, ← zpow_mul, ← zpow_mul, mul_comm]

theorem zpow_le_zpow_of_neg {x y : ℝ} {k b : ℤ} (hx : 0 < x) (hy : 0 < y)
    (h : x ^ (-k) ≤ y ^ (-b)) : y ^ b ≤ x ^ k := by
  rw [zpow_neg, zpow_neg] at h
  exact (inv_le_inv₀ (by positivity) (by positivity)).mp h

/-- The logarithm of two is `0.30103`, with an error that shows only in large powers. -/
theorem ten_zpow_le_two_zpow_of_estimate {k b : ℤ} (hb : |b| ≤ 2000)
    (h : 100000 * k + 50000 ≤ 30103 * b) : (10 : ℝ) ^ k ≤ 2 ^ b := by
  obtain ⟨hlow, hhigh⟩ := abs_le.mp hb
  rcases le_total 0 b with hsign | hsign
  · have hpow : (10 : ℝ) ^ 59 ≤ 2 ^ 196 := by norm_num
    exact zpow_le_zpow_of_pow_le (by norm_num) two_pos (by norm_num) hsign hpow (by omega)
  · have hpow : (2 : ℝ) ^ 93 ≤ 10 ^ 28 := by norm_num
    refine zpow_le_zpow_of_neg two_pos (by norm_num) ?_
    exact zpow_le_zpow_of_pow_le one_le_two (by norm_num) (by norm_num) (by omega) hpow (by omega)

theorem one_le_floor_iff {k : ℤ} :
    1 ≤ ((Ratio.ofBinary m e).scaleDown k).floor ↔ (10 : ℝ) ^ k ≤ m * 2 ^ e := by
  rw [Ratio.floor_eq, Ratio.value_scaleDown, Ratio.value_ofBinary, Nat.one_le_floor_iff,
    one_le_div (by positivity)]

/-- **The magnitude of a number is between two powers of ten.** -/
theorem magnitude_bounds (hc : Canonical m e) (hm : 0 < m) (he : e < 972) :
    (10 : ℝ) ^ (magnitude m e - 1) ≤ m * 2 ^ e ∧ m * 2 ^ e < (10 : ℝ) ^ magnitude m e := by
  have hle := hc.le
  have hbits : m.log2 < 53 := (Nat.log2_lt hm.ne').mpr hc.lt
  have hpow : (0 : ℝ) < 2 ^ e := by positivity
  have hbelow : (2 : ℝ) ^ (m.log2 + e : ℤ) ≤ m * 2 ^ e := by
    rw [zpow_add₀ two_ne_zero, zpow_natCast]
    exact mul_le_mul_of_nonneg_right (by exact_mod_cast Nat.log2_self_le hm.ne') hpow.le
  have habove : m * 2 ^ e < (2 : ℝ) ^ (m.log2 + e + 1 : ℤ) := by
    rw [add_right_comm, zpow_add₀ two_ne_zero]
    exact mul_lt_mul_of_pos_right (by exact_mod_cast Nat.lt_log2_self) hpow
  unfold magnitude
  dsimp only
  obtain ⟨k, hk⟩ : ∃ k : ℤ, (m.log2 + e : ℤ) * 30103 / 100000 + 1 = k := ⟨_, rfl⟩
  -- the estimate is at most one place off
  have hlow : (10 : ℝ) ^ (k - 2) ≤ m * 2 ^ e :=
    (ten_zpow_le_two_zpow_of_estimate (abs_le.mpr ⟨by omega, by omega⟩) (by omega)).trans hbelow
  have hhigh : m * 2 ^ e < (10 : ℝ) ^ (k + 1) := by
    refine habove.trans_le (zpow_le_zpow_of_neg (by norm_num) two_pos ?_)
    exact ten_zpow_le_two_zpow_of_estimate (abs_le.mpr ⟨by omega, by omega⟩) (by omega)
  rw [hk]
  split_ifs with hup hdown
  · rw [add_sub_cancel_right]
    exact ⟨one_le_floor_iff.mp hup, hhigh⟩
  · rw [sub_sub]
    exact ⟨hlow, not_le.mp fun h => absurd hdown (Nat.pos_iff_ne_zero.mp (one_le_floor_iff.mpr h))⟩
  · exact ⟨one_le_floor_iff.mp (Nat.pos_of_ne_zero hdown), not_le.mp (mt one_le_floor_iff.mpr hup)⟩

/-! ## The neighbours on a grid -/

/-- The last decimal of a grid that is not above a double. -/
def lower (m : Nat) (e q : Int) : Nat := ((Ratio.ofBinary m e).scaleDown q).floor

theorem floor_eq_lower : ((Ratio.ofBinary m e).scaleDown q).floor = lower m e q := rfl

theorem lower_eq : lower m e q = ⌊(m * 2 ^ e : ℝ) / 10 ^ q⌋₊ := by
  rw [lower, Ratio.floor_eq, Ratio.value_scaleDown, Ratio.value_ofBinary]

theorem le_lower_iff : c ≤ lower m e q ↔ (c * 10 ^ q : ℝ) ≤ m * 2 ^ e := by
  rw [lower_eq, Nat.le_floor_iff (by positivity), le_div_iff₀ (by positivity)]

theorem lower_lt_iff : lower m e q < c ↔ (m * 2 ^ e : ℝ) < c * 10 ^ q := by
  rw [← not_le, le_lower_iff, not_le]

/-- What lies between a number of an interval and another one is in it and is not farther away. -/
theorem mem_of_mem_uIcc {i : Interval} {a b v : ℝ} (hv : v ∈ i.numbers) (ha : a ∈ i.numbers)
    (hb : b ∈ Set.uIcc v a) : b ∈ i.numbers ∧ |b - v| ≤ |a - v| :=
  ⟨i.ordConnected_numbers.uIcc_subset hv ha hb, Set.abs_sub_left_of_mem_uIcc hb⟩

/-- If a decimal of a grid is in the interval of a double, then so is a neighbour of the double, which
is not farther away. -/
theorem exists_neighbour (hm : 0 < m) (h : (c * 10 ^ q : ℝ) ∈ (Interval.of m e).numbers) :
    ∃ a : ℕ, (a = lower m e q ∨ a = lower m e q + 1) ∧ (a * 10 ^ q : ℝ) ∈ (Interval.of m e).numbers
      ∧ |(a * 10 ^ q : ℝ) - m * 2 ^ e| ≤ |(c * 10 ^ q : ℝ) - m * 2 ^ e| := by
  have hself := Interval.mem_numbers_self (e := e) hm
  rcases le_or_gt c (lower m e q) with hc | hc
  · refine ⟨lower m e q, Or.inl rfl, mem_of_mem_uIcc hself h (Set.mem_uIcc_of_ge ?_ ?_)⟩
    · gcongr
    · exact le_lower_iff.mp le_rfl
  · refine ⟨lower m e q + 1, Or.inr rfl, mem_of_mem_uIcc hself h (Set.mem_uIcc_of_le ?_ ?_)⟩
    · exact (lower_lt_iff.mp (Nat.lt_succ_self _)).le
    · gcongr
      exact hc

/-- What the division leaves tells which of the neighbours is the nearer one. -/
theorem neighbours_le (m : Nat) (e q : Int) :
    let r := (Ratio.ofBinary m e).scaleDown q
    let below := |(lower m e q * 10 ^ q : ℝ) - m * 2 ^ e|
    let above := |((lower m e q + 1 : ℕ) * 10 ^ q : ℝ) - m * 2 ^ e|
    (2 * (r.num % r.den) ≤ r.den → below ≤ above) ∧ (r.den ≤ 2 * (r.num % r.den) → above ≤ below) := by
  intro r below above
  have hpow : (0 : ℝ) < 10 ^ q := by positivity
  have hden : (0 : ℝ) < r.den := by
    exact_mod_cast Ratio.den_scaleDown (Ratio.den_ofBinary m e) q
  have hvalue : (m * 2 ^ e : ℝ) = r.value * 10 ^ q := by
    rw [Ratio.value_scaleDown, Ratio.value_ofBinary, div_mul_cancel₀ _ hpow.ne']
  have hdivide : (r.num : ℝ) = r.den * lower m e q + (r.num % r.den : ℕ) := by
    exact_mod_cast (Nat.div_add_mod r.num r.den).symm
  -- the distances are what is left and what is missing, in the same unit
  have hs : 0 < 10 ^ q / (r.den : ℝ) := div_pos hpow hden
  have hleft : (m * 2 ^ e : ℝ) - lower m e q * 10 ^ q
      = (r.num % r.den : ℕ) * (10 ^ q / r.den) := by
    rw [hvalue, Ratio.value, hdivide]
    field_simp
    ring
  have hmissing : ((lower m e q + 1 : ℕ) * 10 ^ q : ℝ) - m * 2 ^ e
      = (r.den - (r.num % r.den : ℕ)) * (10 ^ q / r.den) := by
    rw [sub_mul, ← hleft, mul_div_cancel₀ _ hden.ne']
    push_cast
    ring
  have hbelow : below = (r.num % r.den : ℕ) * (10 ^ q / r.den) :=
    (abs_sub_comm _ _).trans
      ((abs_of_nonneg (sub_nonneg.mpr (le_lower_iff.mp le_rfl))).trans hleft)
  have habove : above = (r.den - (r.num % r.den : ℕ)) * (10 ^ q / r.den) :=
    (abs_of_pos (sub_pos.mpr (lower_lt_iff.mp (Nat.lt_succ_self _)))).trans hmissing
  rw [hbelow, habove]
  refine ⟨fun hle => mul_le_mul_of_nonneg_right ?_ hs.le,
    fun hle => mul_le_mul_of_nonneg_right ?_ hs.le⟩
  · have hle : (2 * (r.num % r.den : ℕ) : ℝ) ≤ r.den := by exact_mod_cast hle
    linarith
  · have hle : (r.den : ℝ) ≤ 2 * (r.num % r.den : ℕ) := by exact_mod_cast hle
    linarith

/-- A neighbour of a double in its interval, and the nearer one if both are. -/
structure IsHit (m : Nat) (e q : Int) (c : Nat) : Prop where
  neighbour : c = lower m e q ∨ c = lower m e q + 1
  mem : (c * 10 ^ q : ℝ) ∈ (Interval.of m e).numbers
  nearest : ∀ a : ℕ, a = lower m e q ∨ a = lower m e q + 1 →
    (a * 10 ^ q : ℝ) ∈ (Interval.of m e).numbers →
    |(c * 10 ^ q : ℝ) - m * 2 ^ e| ≤ |(a * 10 ^ q : ℝ) - m * 2 ^ e|

theorem isHit_lower (hin : (Interval.of m e).contains (lower m e q) q = true)
    (h : (Interval.of m e).contains (lower m e q + 1) q = true →
      |(lower m e q * 10 ^ q : ℝ) - m * 2 ^ e|
        ≤ |((lower m e q + 1 : ℕ) * 10 ^ q : ℝ) - m * 2 ^ e|) :
    IsHit m e q (lower m e q) := by
  refine ⟨Or.inl rfl, Interval.contains_iff.mp hin, ?_⟩
  rintro a (rfl | rfl) ha
  · exact le_rfl
  · exact h (Interval.contains_iff.mpr ha)

theorem isHit_upper (hin : (Interval.of m e).contains (lower m e q + 1) q = true)
    (h : (Interval.of m e).contains (lower m e q) q = true →
      |((lower m e q + 1 : ℕ) * 10 ^ q : ℝ) - m * 2 ^ e|
        ≤ |(lower m e q * 10 ^ q : ℝ) - m * 2 ^ e|) :
    IsHit m e q (lower m e q + 1) := by
  refine ⟨Or.inr rfl, Interval.contains_iff.mp hin, ?_⟩
  rintro a (rfl | rfl) ha
  · exact h (Interval.contains_iff.mpr ha)
  · exact le_rfl

/-- **What is taken of a grid is a hit.** -/
theorem isHit_of_onGrid? (h : onGrid? tie m e q = some c) : IsHit m e q c := by
  obtain ⟨hfirst, hsecond⟩ := neighbours_le m e q
  unfold onGrid? at h
  dsimp only at h
  rw [floor_eq_lower] at h
  split at h
  · cases h
  · rename_i hin hout
    cases h
    exact isHit_lower hin fun h => by rw [hout] at h; cases h
  · rename_i hout hin
    cases h
    exact isHit_upper hin fun h => by rw [hout] at h; cases h
  · rename_i hin hin'
    split at h
    · rename_i hcompare
      cases h
      exact isHit_lower hin fun _ => hfirst (Nat.compare_eq_lt.mp hcompare).le
    · rename_i hcompare
      cases h
      exact isHit_upper hin' fun _ => hsecond (Nat.compare_eq_gt.mp hcompare).le
    · rename_i hcompare
      have heq := Nat.compare_eq_eq.mp hcompare
      split_ifs at h
      · cases h
        exact isHit_lower hin fun _ => hfirst heq.le
      · cases h
        exact isHit_upper hin' fun _ => hsecond heq.ge

/-- A grid with a decimal in the interval has a hit. -/
theorem onGrid?_ne_none (hm : 0 < m) (h : (c * 10 ^ q : ℝ) ∈ (Interval.of m e).numbers) :
    onGrid? tie m e q ≠ none := by
  obtain ⟨a, ha, hin, -⟩ := exists_neighbour hm h
  rw [← Interval.contains_iff] at hin
  intro hnone
  unfold onGrid? at hnone
  dsimp only at hnone
  rw [floor_eq_lower] at hnone
  split at hnone
  · rename_i hout hout'
    rcases ha with rfl | rfl
    · rw [hout] at hin
      cases hin
    · rw [hout'] at hin
      cases hin
  · cases hnone
  · cases hnone
  · split at hnone
    · cases hnone
    · cases hnone
    · split_ifs at hnone

/-! ## Seventeen digits -/

/-- The decimals of seventeen digits lie closer together than an interval is wide. -/
theorem exists_mem_seventeen {k : ℤ} (hc : Canonical m e) (hm : 0 < m)
    (hk : (10 : ℝ) ^ (k - 1) ≤ m * 2 ^ e) :
    ∃ c : ℕ, (c * 10 ^ (k - 17) : ℝ) ∈ (Interval.of m e).numbers := by
  have hpow : (0 : ℝ) < 2 ^ e := by positivity
  have hbits : (m : ℝ) + 1 ≤ 2 ^ 53 := by exact_mod_cast hc.lt
  have hunit : (10 : ℝ) ^ (k - 1) = 10 ^ 16 * 10 ^ (k - 17) := by
    rw [← zpow_natCast, ← zpow_add₀ (by norm_num)]
    congr 1
    omega
  rw [hunit] at hk
  have hwidth : (10 : ℝ) ^ (k - 17) < (Interval.of m e).high * 2 ^ (Interval.of m e).exponent
      - (Interval.of m e).low * 2 ^ (Interval.of m e).exponent := by
    rw [Interval.high_of, Interval.low_of hm]
    split_ifs with hpower
    · rw [hpower.1] at hk ⊢
      push_cast at hk ⊢
      linarith
    · have hless := mul_le_mul_of_nonneg_right hbits hpow.le
      linarith
  have hbelow : (lower m e (k - 17) * 10 ^ (k - 17) : ℝ) ≤ m * 2 ^ e := le_lower_iff.mp le_rfl
  have habove : (m * 2 ^ e : ℝ) < (lower m e (k - 17) + 1 : ℕ) * 10 ^ (k - 17) :=
    lower_lt_iff.mp (Nat.lt_succ_self _)
  have hlow := Interval.low_of_lt (e := e) hm
  have hhigh := Interval.lt_high_of (m := m) (e := e)
  rcases lt_or_ge ((Interval.of m e).low * 2 ^ (Interval.of m e).exponent : ℝ)
    (lower m e (k - 17) * 10 ^ (k - 17)) with hin | hout
  · exact ⟨lower m e (k - 17), Interval.mem_numbers.mpr ⟨Or.inl hin, Or.inl (hbelow.trans_lt hhigh)⟩⟩
  · refine ⟨lower m e (k - 17) + 1, Interval.mem_numbers.mpr ⟨Or.inl (hlow.trans habove), Or.inl ?_⟩⟩
    push_cast
    linarith

/-! ## Idle zeros -/

/-- The size of a decimal, its sign left aside. -/
noncomputable def size (d : Decimal) : ℝ := d.coefficient * (10 : ℕ) ^ d.exponent

theorem size_eq (d : Decimal) : d.size = d.coefficient * 10 ^ d.exponent := by
  rw [size, Nat.cast_ofNat]

/-- How many digits a decimal has. -/
def length (d : Decimal) : Nat := (Nat.digits 10 d.coefficient).length

theorem length_le_iff {d : Decimal} {s : ℕ} : d.length ≤ s ↔ d.coefficient < 10 ^ s :=
  Nat.digits_length_le_iff (by norm_num) d.coefficient

theorem length_pos_iff {d : Decimal} : 0 < d.length ↔ d.coefficient ≠ 0 := by
  rw [← not_le, length_le_iff, pow_zero, Nat.lt_one_iff]

theorem negative_stripZeros (fuel : Nat) (d : Decimal) :
    (stripZeros fuel d).negative = d.negative := by
  induction fuel generalizing d with
  | zero => rfl
  | succ fuel ih =>
    unfold stripZeros
    split_ifs
    · exact ih _
    · rfl

theorem size_stripZeros (fuel : Nat) (d : Decimal) : (stripZeros fuel d).size = d.size := by
  induction fuel generalizing d with
  | zero => rfl
  | succ fuel ih =>
    unfold stripZeros
    split_ifs with h
    · have hten : (d.coefficient : ℝ) = (d.coefficient / 10 : ℕ) * 10 := by
        exact_mod_cast (Nat.div_mul_cancel (Nat.dvd_of_mod_eq_zero h.2)).symm
      rw [ih, size_eq, size_eq, hten, zpow_add_one₀ (by norm_num)]
      ring
    · rfl

theorem coefficient_stripZeros_le (fuel : Nat) (d : Decimal) :
    (stripZeros fuel d).coefficient ≤ d.coefficient := by
  induction fuel generalizing d with
  | zero => exact le_rfl
  | succ fuel ih =>
    unfold stripZeros
    split_ifs
    · exact (ih _).trans (Nat.div_le_self _ _)
    · exact le_rfl

/-- Of a power of ten one digit is left. -/
theorem length_stripZeros_le {fuel s : Nat} {d : Decimal} (hs : 0 < s) (hfuel : 0 < fuel)
    (h : d.coefficient ≤ 10 ^ s) : (stripZeros fuel d).length ≤ s := by
  obtain ⟨fuel, rfl⟩ := Nat.exists_eq_add_one.mpr hfuel
  rw [length_le_iff]
  unfold stripZeros
  split_ifs with hzero
  · refine (coefficient_stripZeros_le _ _).trans_lt ?_
    show d.coefficient / 10 < 10 ^ s
    omega
  · refine lt_of_le_of_ne h fun heq => hzero ?_
    rw [heq]
    exact ⟨(Nat.pow_pos (by norm_num)).ne', Nat.mod_eq_zero_of_dvd (dvd_pow_self 10 hs.ne')⟩

/-! ## The search -/

/-- A search through the numbers below a bound ends at the first of them that gives something. -/
theorem exists_of_findSome?_range {α : Type} {f : Nat → Option α} {bound : Nat} {a : α}
    (h : (List.range bound).findSome? f = some a) : ∃ n, f n = some a ∧ ∀ j < n, f j = none := by
  obtain ⟨before, n, after, hrange, hn, hbefore⟩ := List.findSome?_eq_some_iff.mp h
  refine ⟨n, hn, fun j hj => hbefore j ?_⟩
  have hsorted := List.pairwise_lt_range (n := bound)
  have hlt : n < bound := List.mem_range.mp (hrange ▸ List.mem_append_right _ List.mem_cons_self)
  have hmem : j ∈ List.range bound := List.mem_range.mpr (hj.trans hlt)
  rw [hrange] at hsorted hmem
  rcases List.mem_append.mp hmem with hbefore | hafter
  · exact hbefore
  · rcases List.mem_cons.mp hafter with rfl | hlater
    · exact absurd hj (lt_irrefl j)
    · have hgt := List.rel_of_pairwise_cons (List.pairwise_append.mp hsorted).2.1 hlater
      exact absurd hj hgt.asymm

/-- **What is found is a hit on the first grid that has one**, less its idle zeros. -/
theorem of_search? {d : Decimal} (h : search? tie negative m e = some d) :
    ∃ (n c : Nat), IsHit m e (magnitude m e - (n + 1)) c
      ∧ d = stripZeros 17 ⟨negative, c, magnitude m e - (n + 1)⟩
      ∧ ∀ j < n, onGrid? tie m e (magnitude m e - (j + 1)) = none := by
  unfold search? at h
  obtain ⟨n, hn, hbefore⟩ := exists_of_findSome?_range h
  obtain ⟨c, hc, hd⟩ := Option.map_eq_some_iff.mp hn
  exact ⟨n, c, isHit_of_onGrid? hc, hd.symm,
    fun j hj => Option.map_eq_none_iff.mp (hbefore j hj)⟩

/-- **The search finds a decimal for every double.** -/
theorem search?_ne_none (hc : Canonical m e) (hm : 0 < m) (he : e < 972) :
    search? tie negative m e ≠ none := by
  obtain ⟨c, hin⟩ := exists_mem_seventeen hc hm (magnitude_bounds hc hm he).1
  intro hnone
  unfold search? at hnone
  have hgrid := Option.map_eq_none_iff.mp
    (List.findSome?_eq_none_iff.mp hnone 16 (List.mem_range.mpr (by norm_num)))
  exact onGrid?_ne_none hm hin hgrid

theorem negative_of_search? {d : Decimal} (h : search? tie negative m e = some d) :
    d.negative = negative := by
  obtain ⟨n, c, -, rfl, -⟩ := of_search? h
  exact negative_stripZeros _ _

/-- The decimal that is found is in the interval of the double. -/
theorem size_mem_of_search? {d : Decimal} (h : search? tie negative m e = some d) :
    d.size ∈ (Interval.of m e).numbers := by
  obtain ⟨n, c, hhit, rfl, -⟩ := of_search? h
  rw [size_stripZeros, size_eq]
  exact hhit.mem

theorem length_pos_of_mem {d : Decimal} (hm : 0 < m) (h : d.size ∈ (Interval.of m e).numbers) :
    0 < d.length := by
  refine length_pos_iff.mpr fun hzero => ?_
  have hsize := Interval.pos_of_mem_numbers hm h
  rw [size_eq, hzero, Nat.cast_zero, zero_mul] at hsize
  exact lt_irrefl _ hsize

/-- A decimal in an interval is on the grid of its number of digits, or a power of ten that is on
it lies between the decimal and the double. -/
theorem exists_mem_grid {k : ℤ} {d : Decimal} {s : ℕ} (hm : 0 < m)
    (hk : (10 : ℝ) ^ (k - 1) ≤ m * 2 ^ e) (hd : d.size ∈ (Interval.of m e).numbers)
    (hs : d.length ≤ s) :
    ∃ c : ℕ, (c * 10 ^ (k - s) : ℝ) ∈ (Interval.of m e).numbers
      ∧ |(c * 10 ^ (k - s) : ℝ) - m * 2 ^ e| ≤ |d.size - m * 2 ^ e| := by
  have hlt : (d.coefficient : ℝ) < 10 ^ s := by exact_mod_cast length_le_iff.mp hs
  rcases le_or_gt (k - s) d.exponent with hle | hgt
  · refine ⟨d.coefficient * 10 ^ (d.exponent - (k - s)).toNat, ?_⟩
    have hgrid : ((d.coefficient * 10 ^ (d.exponent - (k - s)).toNat : ℕ) * 10 ^ (k - s) : ℝ)
        = d.size := by
      rw [size_eq, Nat.cast_mul, Nat.cast_pow, Nat.cast_ofNat, mul_assoc, ← zpow_natCast,
        ← zpow_add₀ (by norm_num), Int.toNat_of_nonneg (by omega), sub_add_cancel]
    rw [hgrid]
    exact ⟨hd, le_rfl⟩
  · have hs0 : 0 < s := (length_pos_of_mem hm hd).trans_le hs
    have hgrid : ((10 ^ (s - 1) : ℕ) * 10 ^ (k - s) : ℝ) = 10 ^ (k - 1) := by
      rw [Nat.cast_pow, Nat.cast_ofNat, ← zpow_natCast, ← zpow_add₀ (by norm_num)]
      congr 1
      omega
    have hsmall : d.size < 10 ^ (k - 1) := by
      calc d.size = d.coefficient * 10 ^ d.exponent := size_eq d
        _ < 10 ^ s * 10 ^ d.exponent := mul_lt_mul_of_pos_right hlt (by positivity)
        _ = 10 ^ (s + d.exponent) := by rw [zpow_add₀ (by norm_num), zpow_natCast]
        _ ≤ 10 ^ (k - 1) := zpow_le_zpow_right₀ (by norm_num) (by omega)
    refine ⟨10 ^ (s - 1), ?_⟩
    rw [hgrid]
    exact mem_of_mem_uIcc (Interval.mem_numbers_self hm) hd (Set.mem_uIcc_of_ge hsmall.le hk)

/-- A hit has no more digits than its grid, but for idle zeros. -/
theorem coefficient_le_of_isHit {k : ℤ} {s : ℕ} (hk : m * 2 ^ e < (10 : ℝ) ^ k)
    (h : IsHit m e (k - s) c) : c ≤ 10 ^ s := by
  have hlower : lower m e (k - s) < 10 ^ s := by
    rw [lower_lt_iff, Nat.cast_pow, Nat.cast_ofNat, ← zpow_natCast, ← zpow_add₀ (by norm_num),
      add_sub_cancel]
    exact hk
  rcases h.neighbour with rfl | rfl
  · exact hlower.le
  · exact hlower

/-- **No decimal in the interval has fewer digits than the one that is found**, and none that has as
many is nearer to the double. -/
theorem search?_best (hc : Canonical m e) (hm : 0 < m) (he : e < 972) {d d' : Decimal}
    (h : search? tie negative m e = some d) (hd' : d'.size ∈ (Interval.of m e).numbers) :
    d.length ≤ d'.length
      ∧ (d'.length ≤ d.length → |d.size - m * 2 ^ e| ≤ |d'.size - m * 2 ^ e|) := by
  obtain ⟨hlow, hhigh⟩ := magnitude_bounds hc hm he
  obtain ⟨n, c, hhit, rfl, hfirst⟩ := of_search? h
  have hlength : (stripZeros 17 ⟨negative, c, magnitude m e - (n + 1)⟩).length ≤ n + 1 :=
    length_stripZeros_le n.succ_pos (by norm_num) (coefficient_le_of_isHit hhigh hhit)
  -- with fewer digits the search would have stopped before
  have hfewer : n + 1 ≤ d'.length := by
    by_contra hlt
    obtain ⟨s, hs⟩ := Nat.exists_eq_add_one.mpr (length_pos_of_mem hm hd')
    obtain ⟨a, ha, -⟩ := exists_mem_grid hm hlow hd' hs.le
    exact onGrid?_ne_none hm ha (hfirst s (by omega))
  refine ⟨hlength.trans hfewer, fun hle => ?_⟩
  obtain ⟨a, ha, hnear⟩ := exists_mem_grid hm hlow hd' (hle.trans hlength)
  obtain ⟨b, hb, hin, hnear'⟩ := exists_neighbour hm ha
  rw [size_stripZeros, size_eq]
  exact (hhit.nearest b hb hin).trans (hnear'.trans hnear)

/-! ## Doubles -/

section

variable {x : Float} {d : Decimal}

/-- The shortest decimal of a double has digits, or is a plain zero. -/
theorem coefficient_shortest (h : shortest? tie x = some d) :
    d.coefficient ≠ 0 ∨ d.exponent = 0 := by
  unfold shortest? at h
  split at h
  · cases h
  · cases h
  · cases h
    exact Or.inr rfl
  · rename_i hm hx
    exact Or.inl (length_pos_iff.mp (length_pos_of_mem hm (size_mem_of_search? h)))

/-- **Just the finite doubles have a shortest decimal.** -/
theorem shortest_eq_none_iff : shortest? tie x = none ↔ ¬ x.isFinite = true := by
  rw [isFinite_eq]
  unfold shortest?
  cases hx : parts x with
  | notANumber => exact iff_of_true rfl Bool.false_ne_true
  | infinity s => exact iff_of_true rfl Bool.false_ne_true
  | zero s => exact iff_of_false (Option.some_ne_none _) (not_not.mpr rfl)
  | finite s m e hm =>
    have hfound : search? tie (isNegative x) m e ≠ none :=
      search?_ne_none (canonical_of_parts hx) hm (lt_of_parts hx)
    exact iff_of_false hfound (not_not.mpr rfl)

end

end ScaraArm.Decimal
