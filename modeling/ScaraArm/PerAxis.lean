/-!
# One value per axis

A SCARA machine has two driven axes, the joints of its arm, and any number of carried
axes that ride along without changing where the arm points. `PerAxis α k` holds one value
for each of the two driven axes and each of `k` carried ones, so that no machine has fewer
than two axes. Axes are counted from zero, the driven ones first.
-/

namespace ScaraArm

/-- One value for each of two driven and `k` carried axes. -/
structure PerAxis (α : Type) (k : Nat) where
  /-- The value of axis 0, the lower link. -/
  first : α
  /-- The value of axis 1, the upper link. -/
  second : α
  /-- The values of the carried axes, from axis 2 on. -/
  carried : Vector α k
deriving Repr, DecidableEq

/-- An axis was named that the machine does not have. -/
structure OutOfRange where
  /-- How many axes there are. -/
  size : Nat
  /-- The axis that was named. -/
  index : Nat
deriving Repr, DecidableEq

/-- What went wrong, in words. -/
def OutOfRange.message (e : OutOfRange) : String :=
  s!"index out of bounds: the len is {e.size} but the index is {e.index}"

namespace PerAxis

variable {α β γ : Type} {k : Nat}

/-- The number of axes. -/
def size (_ : PerAxis α k) : Nat := k + 2

/-- The same value for every axis. -/
def replicate (k : Nat) (x : α) : PerAxis α k := ⟨x, x, Vector.replicate k x⟩

/-- The value of an axis, if there is such an axis. -/
def get? (v : PerAxis α k) : Nat → Option α
  | 0 => some v.first
  | 1 => some v.second
  | i + 2 => v.carried[i]?

/-- Gives an axis a new value. An axis that does not exist changes nothing. -/
def set (v : PerAxis α k) (i : Nat) (x : α) : PerAxis α k :=
  match i with
  | 0 => { v with first := x }
  | 1 => { v with second := x }
  | i + 2 => { v with carried := v.carried.setIfInBounds i x }

/-- The value of an axis, or the reason why there is none. -/
def get (v : PerAxis α k) (i : Nat) : Except OutOfRange α :=
  match v.get? i with
  | some x => .ok x
  | none => .error ⟨v.size, i⟩

/-- Gives an axis a new value, if there is such an axis. -/
def put (v : PerAxis α k) (i : Nat) (x : α) : Except OutOfRange (PerAxis α k) :=
  if i < v.size then .ok (v.set i x) else .error ⟨v.size, i⟩

/-- Applies a function on every axis. -/
def map (f : α → β) (v : PerAxis α k) : PerAxis β k :=
  ⟨f v.first, f v.second, v.carried.map f⟩

/-- Combines two values on every axis. -/
def zipWith (f : α → β → γ) (v : PerAxis α k) (w : PerAxis β k) : PerAxis γ k :=
  ⟨f v.first w.first, f v.second w.second, v.carried.zipWith f w.carried⟩

/-- The values in axis order. -/
def toList (v : PerAxis α k) : List α := v.first :: v.second :: v.carried.toList

/-- Takes a list of values in axis order, if there are as many as axes. -/
def ofList? (k : Nat) : List α → Option (PerAxis α k)
  | x :: y :: rest =>
    if h : rest.length = k then some ⟨x, y, ⟨rest.toArray, by simp [h]⟩⟩ else none
  | _ => none

instance [BEq α] : BEq (PerAxis α k) where
  beq v w := v.first == w.first && v.second == w.second && v.carried == w.carried

@[simp] theorem get?_zero (v : PerAxis α k) : v.get? 0 = some v.first := rfl

@[simp] theorem get?_one (v : PerAxis α k) : v.get? 1 = some v.second := rfl

@[simp] theorem get?_add_two (v : PerAxis α k) (i : Nat) : v.get? (i + 2) = v.carried[i]? := rfl

theorem get?_eq_none (v : PerAxis α k) {i : Nat} (h : k + 2 ≤ i) : v.get? i = none := by
  obtain ⟨i, rfl⟩ := Nat.exists_eq_add_of_le' (Nat.le_trans (Nat.le_add_left 2 k) h)
  rw [get?_add_two]
  exact Vector.getElem?_eq_none (by omega)

/-- Values agree when they agree on every axis. -/
theorem ext_get? {v w : PerAxis α k} (h : ∀ i, v.get? i = w.get? i) : v = w := by
  obtain ⟨x, y, carried⟩ := v
  obtain ⟨x', y', carried'⟩ := w
  cases Option.some.inj (h 0)
  cases Option.some.inj (h 1)
  have hcarried : carried = carried' := by
    apply Vector.ext
    intro i hi
    have hget : carried[i]? = carried'[i]? := h (i + 2)
    rw [Vector.getElem?_eq_getElem hi, Vector.getElem?_eq_getElem hi] at hget
    exact Option.some.inj hget
  rw [hcarried]

/-- A new value is found on its axis, and every other axis keeps the value it had. -/
theorem get?_set (v : PerAxis α k) {i : Nat} (hi : i < k + 2) (j : Nat) (x : α) :
    (v.set i x).get? j = if j = i then some x else v.get? j := by
  match i, j with
  | 0, 0 => rfl
  | 0, 1 => rfl
  | 0, j + 2 => rfl
  | 1, 0 => rfl
  | 1, 1 => rfl
  | 1, j + 2 => rw [if_neg (by omega)]; rfl
  | i + 2, 0 => rw [if_neg (by omega)]; rfl
  | i + 2, 1 => rw [if_neg (by omega)]; rfl
  | i + 2, j + 2 =>
    show (v.carried.setIfInBounds i x)[j]? = _
    rw [Vector.getElem?_setIfInBounds, get?_add_two]
    by_cases hij : i = j
    · rw [if_pos hij, if_pos (by omega), if_pos (by omega)]
    · rw [if_neg hij, if_neg (by omega)]

theorem put_of_lt (v : PerAxis α k) {i : Nat} (hi : i < k + 2) (x : α) :
    v.put i x = .ok (v.set i x) := if_pos hi

theorem put_of_le (v : PerAxis α k) {i : Nat} (hi : k + 2 ≤ i) (x : α) :
    v.put i x = .error ⟨k + 2, i⟩ := if_neg (Nat.not_lt.mpr hi)

/-- Combining is undone on all axes if it is undone on each of them. -/
theorem zipWith_zipWith_cancel {f : α → β → γ} {g : α → γ → β} {v : PerAxis α k}
    {w : PerAxis β k}
    (h : ∀ x ∈ v.toList, ∀ y, f x y ∈ (v.zipWith f w).toList → g x (f x y) = y) :
    v.zipWith g (v.zipWith f w) = w := by
  obtain ⟨x, x', carried⟩ := v
  obtain ⟨y, y', carried'⟩ := w
  simp only [zipWith, toList, List.mem_cons, Vector.mem_toList_iff] at h ⊢
  have hcarried : carried.zipWith g (carried.zipWith f carried') = carried' := by
    apply Vector.ext
    intro i hi
    have hmem : f carried[i] carried'[i] ∈ carried.zipWith f carried' :=
      Vector.mem_of_getElem (Vector.getElem_zipWith hi)
    rw [Vector.getElem_zipWith, Vector.getElem_zipWith]
    exact h _ (.inr (.inr (Vector.getElem_mem hi))) _ (.inr (.inr hmem))
  rw [h x (.inl rfl) y (.inl rfl), h x' (.inr (.inl rfl)) y' (.inr (.inl rfl)), hcarried]

@[simp] theorem length_toList (v : PerAxis α k) : v.toList.length = v.size := by
  simp [toList, size]

/-- A list of the right length is taken as it is. -/
theorem ofList?_toList (v : PerAxis α k) : ofList? k v.toList = some v := by
  rcases v with ⟨x, y, ⟨rest, rfl⟩⟩
  simp [ofList?, toList]

/-- A list is taken just if it is the list of the values. -/
theorem ofList?_eq_some_iff {xs : List α} {v : PerAxis α k} :
    ofList? k xs = some v ↔ v.toList = xs := by
  refine ⟨fun h => ?_, fun h => h ▸ ofList?_toList v⟩
  match xs with
  | [] => cases h
  | [_] => cases h
  | x :: y :: rest =>
    rw [ofList?] at h
    split at h
    · cases h
      rfl
    · cases h

/-- A list is refused just if there are not as many values as axes. -/
theorem ofList?_eq_none_iff {xs : List α} : ofList? k xs = none ↔ xs.length ≠ k + 2 := by
  match xs with
  | [] => simp [ofList?]
  | [_] => simp [ofList?]
  | x :: y :: rest => simp [ofList?]

end PerAxis

end ScaraArm
