import Mathlib
import ScaraArm.Proofs.Binary64.Inverse

/-!
# The disc has no gaps

Whether a point is accepted is a comparison of two rounded numbers, so at the edge of the disc it is
rounding that decides. It could let a point pass and refuse one that is nearer to the base.

It does not, because everything on the way keeps the order. A rounded square does not know the sign
of its root and grows with the size of it; a rounded sum of squares does not know which of them
comes first and grows with both. Only infinities have to be watched: a square is never below zero,
so a sum of squares is never taken of two opposite ones.

Hence the accepted points of a ray from the base are those up to an edge, and it does not matter
whether the points of the ray are doubles or have been rounded to some.
-/

namespace ScaraArm.Binary64

variable {x y x' y' : Float}

/-! ## Sizes -/

theorem parts_abs (x : Float) : parts x.abs = (parts x).abs := by
  show parts (.ofModel (.pack (parts x).abs)) = _
  cases hx : parts x with
  | notANumber => rfl
  | infinity s => exact parts_pack_infinity .positive
  | zero s => cases s <;> rfl
  | finite s m e h =>
    show parts (.ofModel (.pack (.finite .positive m e h))) = _
    rw [parts_pack h (canonical_of_parts hx), if_pos (lt_of_parts hx)]
    rfl

theorem isNumber_abs : IsNumber x.abs ↔ IsNumber x := by
  unfold IsNumber
  rw [parts_abs]
  cases parts x <;> simp [Float.Model.UnpackedFloat.abs]

/-- A double without its sign stands for a number that is not below zero. -/
theorem value_abs (x : Float) :
    0 ≤ value x.abs ∧ (value x.abs = value x ∨ value x.abs = -value x) := by
  unfold value
  rw [parts_abs]
  cases parts x with
  | notANumber => exact ⟨le_rfl, Or.inl rfl⟩
  | infinity s =>
    cases s with
    | positive => exact ⟨le_top, Or.inl rfl⟩
    | negative => exact ⟨le_top, Or.inr EReal.neg_bot.symm⟩
  | zero s => exact ⟨le_rfl, Or.inl rfl⟩
  | finite s m e h =>
    refine ⟨(number_positive e h).le, ?_⟩
    cases s with
    | positive => exact Or.inl rfl
    | negative =>
      refine Or.inr ?_
      show number (.finite .positive m e h) = _
      rw [number_finite, number_finite, ← EReal.coe_neg, signOf, signOf, neg_one_mul, neg_neg,
        one_mul]

theorem value_le_abs (x : Float) : -value x.abs ≤ value x ∧ value x ≤ value x.abs := by
  obtain ⟨hnonneg, heq | heq⟩ := value_abs x
  · rw [heq] at hnonneg ⊢
    exact ⟨(EReal.neg_le_zero.mpr hnonneg).trans hnonneg, le_rfl⟩
  · rw [heq] at hnonneg ⊢
    rw [neg_neg]
    exact ⟨le_rfl, (EReal.neg_nonneg.mp hnonneg).trans hnonneg⟩

theorem value_abs_of_nonneg (h : 0 ≤ value x) : value x.abs = value x := by
  obtain ⟨hnonneg, heq | heq⟩ := value_abs x
  · exact heq
  · have hzero : value x = 0 := le_antisymm (EReal.neg_nonneg.mp (heq ▸ hnonneg)) h
    rw [heq, hzero, neg_zero]

theorem value_abs_of_nonpos (h : value x ≤ 0) : value x.abs = -value x := by
  obtain ⟨hnonneg, heq | heq⟩ := value_abs x
  · have hzero : value x = 0 := le_antisymm h (heq ▸ hnonneg)
    rw [heq, hzero, neg_zero]
  · exact heq

theorem value_abs_mul_self (x : Float) : value x.abs * value x.abs = value x * value x := by
  rcases (value_abs x).2 with heq | heq
  · rw [heq]
  · rw [heq, neg_mul_neg]

/-- The square of a number between two opposite ones is at most theirs. -/
theorem mul_self_le_of_between {a b : EReal} (hlow : -b ≤ a) (hhigh : a ≤ b) : a * a ≤ b * b := by
  induction b with
  | bot =>
    rw [EReal.neg_bot, top_le_iff] at hlow
    rw [hlow] at hhigh
    exact absurd hhigh bot_lt_top.not_ge
  | top => exact le_top
  | coe s =>
    -- between two real numbers there are only real ones
    rw [← EReal.coe_neg] at hlow
    lift a to ℝ using ⟨(hhigh.trans_lt (EReal.coe_lt_top s)).ne,
      ((EReal.bot_lt_coe (-s)).trans_le hlow).ne'⟩
    rw [← EReal.coe_mul, ← EReal.coe_mul]
    rw [EReal.coe_le_coe_iff] at *
    exact abs_le_iff_mul_self_le.mp ((abs_le.mpr ⟨hlow, hhigh⟩).trans (le_abs_self s))

/-- **A rounded square grows with the size of its root.** -/
theorem value_mul_self_mono (h : x.abs ≤ y.abs) : value (x * x) ≤ value (y * y) := by
  obtain ⟨hx, hy, hle⟩ := le_iff.mp h
  rw [isNumber_abs] at hx hy
  rw [value_mul (isNumber_mul_self hx), value_mul (isNumber_mul_self hy), ← value_abs_mul_self y]
  obtain ⟨hlow, hhigh⟩ := value_le_abs x
  refine nearest_mono (mul_self_le_of_between ?_ (hhigh.trans hle))
  exact (EReal.neg_le_neg_iff.mpr hle).trans hlow

theorem value_neg_mul_self (hx : IsNumber x) : value (-x * -x) = value (x * x) := by
  rw [value_mul (isNumber_mul_self (isNumber_neg.mpr hx)), value_mul (isNumber_mul_self hx),
    value_neg, neg_mul_neg]

/-- Two doubles that are not below zero have a sum, also if both are infinite. -/
theorem isNumber_add_of_nonneg (hx : IsNumber x) (hy : IsNumber y) (hx0 : 0 ≤ value x)
    (hy0 : 0 ≤ value y) : IsNumber (x + y) := by
  by_cases hfx : x.isFinite = true
  · exact isNumber_add_of_isFinite hfx hy
  by_cases hfy : y.isFinite = true
  · exact isNumber_add hx hfy
  have htop : ∀ {z : Float}, IsNumber z → 0 ≤ value z → ¬ z.isFinite = true →
      parts z = .infinity .positive := by
    intro z hz hz0 hfz
    refine parts_of_infinity ((value_of_not_isFinite hz hfz).resolve_right fun hbot => ?_)
    exact absurd (hbot ▸ hz0) EReal.bot_lt_zero.not_ge
  rw [IsNumber, parts_add, htop hx hx0 hfx, htop hy hy0 hfy]
  exact (rounds_infinity .positive).1

/-! ## What is accepted -/

namespace Arm

variable {circular : Circular} {g : Arm circular} {p p' : Planar Float}

/-- The arm accepts a point: there are joints for it. -/
def Accepts (g : Arm circular) (p : Planar Float) : Prop := ∃ q, g.inverse p = .ok q

theorem accepts_iff_reaches : g.Accepts p ↔ g.reaches p = true := by
  refine ⟨fun ⟨q, hq⟩ => ?_, @Geometry.inverse_of_reaches Float (scalar circular) g p⟩
  by_contra hr
  have herror := @Geometry.inverse_of_not_reaches Float (scalar circular) g p
    (Bool.eq_false_iff.mpr hr)
  cases hq.symm.trans herror

/-- **A point is accepted** if it has two numbers for coordinates and the rounded sum of their
rounded squares is at most the rounded square of the reach. -/
theorem accepts_iff : g.Accepts p ↔ IsNumber p.x ∧ IsNumber p.y
    ∧ nearest (value (p.x * p.x) + value (p.y * p.y)) ≤ value (g.reach * g.reach) := by
  rw [accepts_iff_reaches, reaches_iff, le_iff]
  constructor
  · rintro ⟨hsum, -, hle⟩
    obtain ⟨hx, hy⟩ := isNumber_of_add hsum
    rw [value_add hsum] at hle
    exact ⟨(isNumber_of_mul hx).1, (isNumber_of_mul hy).1, hle⟩
  · -- the comparison could still fail if one of the sides was undefined
    rintro ⟨hx, hy, hle⟩
    have hsum : IsNumber (p.x * p.x + p.y * p.y) :=
      isNumber_add_of_nonneg (isNumber_mul_self hx) (isNumber_mul_self hy)
        (mul_self_nonneg_of_isNumber hx) (mul_self_nonneg_of_isNumber hy)
    obtain ⟨a, hl⟩ := exists_measures circular (@Geometry.lower_pos Float (scalar circular) g)
    obtain ⟨b, hu⟩ := exists_measures circular (@Geometry.upper_pos Float (scalar circular) g)
    exact ⟨hsum, isNumber_mul_self (isNumber_reach hl hu), by rwa [value_add hsum]⟩

/-! ## Nearer points -/

/-- No coordinate of the first point is larger in size than that of the second. -/
def Nearer (p' p : Planar Float) : Prop := p'.x.abs ≤ p.x.abs ∧ p'.y.abs ≤ p.y.abs

/-- **With a point all nearer ones are accepted.** -/
theorem Accepts.of_nearer (h : g.Accepts p) (hnear : Nearer p' p) : g.Accepts p' := by
  obtain ⟨hx, hy⟩ := hnear
  obtain ⟨-, -, hle⟩ := accepts_iff.mp h
  refine accepts_iff.mpr ⟨isNumber_abs.mp (le_iff.mp hx).1, isNumber_abs.mp (le_iff.mp hy).1, ?_⟩
  exact (nearest_mono (add_le_add (value_mul_self_mono hx) (value_mul_self_mono hy))).trans hle

theorem accepts_swap (x y : Float) : g.Accepts ⟨y, x⟩ ↔ g.Accepts ⟨x, y⟩ := by
  rw [accepts_iff, accepts_iff, add_comm]
  exact and_left_comm

theorem accepts_neg_left (x y : Float) : g.Accepts ⟨-x, y⟩ ↔ g.Accepts ⟨x, y⟩ := by
  rw [accepts_iff, accepts_iff]
  dsimp only
  rw [isNumber_neg]
  refine and_congr_right fun hx => ?_
  rw [value_neg_mul_self hx]

theorem accepts_neg_right (x y : Float) : g.Accepts ⟨x, -y⟩ ↔ g.Accepts ⟨x, y⟩ := by
  rw [accepts_swap, accepts_neg_left, accepts_swap]

/-! ## Rays -/

/-- A point of the ray from the base in the direction `(a, b)`, `t` times as far out as that
direction is long, rounded to two doubles. A point whose coordinates are doubles is left alone. -/
structure OnRay (a b : ℝ) (t : EReal) (p : Planar Float) : Prop where
  isNumber_x : IsNumber p.x
  isNumber_y : IsNumber p.y
  value_x : value p.x = nearest (t * a)
  value_y : value p.y = nearest (t * b)

/-- A share of a coordinate is no larger than a larger share of it. -/
theorem abs_le_of_share {a : ℝ} {t t' : EReal} (hx' : IsNumber x') (hx : IsNumber x)
    (h' : value x' = nearest (t' * a)) (h : value x = nearest (t * a)) (h0 : 0 ≤ t')
    (hle : t' ≤ t) : x'.abs ≤ x.abs := by
  refine le_iff.mpr ⟨isNumber_abs.mpr hx', isNumber_abs.mpr hx, ?_⟩
  -- both shares are on the side of zero that `a` is on
  rcases le_total 0 a with ha | ha
  · have ha : (0 : EReal) ≤ a := EReal.coe_nonneg.mpr ha
    have hnear : 0 ≤ value x' := h' ▸ nearest_nonneg (mul_nonneg h0 ha)
    have hfar : value x' ≤ value x := by
      rw [h', h]
      exact nearest_mono (mul_le_mul_of_nonneg_right hle ha)
    rwa [value_abs_of_nonneg hnear, value_abs_of_nonneg (hnear.trans hfar)]
  · have ha : (a : EReal) ≤ 0 := EReal.coe_nonpos.mpr ha
    have hnear : value x' ≤ 0 := by
      rw [h', ← nearest_zero]
      exact nearest_mono (mul_nonpos_of_nonneg_of_nonpos h0 ha)
    have hfar : value x ≤ value x' := by
      rw [h', h]
      exact nearest_mono (EReal.mul_le_mul_of_nonpos_right hle ha)
    rwa [value_abs_of_nonpos hnear, value_abs_of_nonpos (hfar.trans hnear), EReal.neg_le_neg_iff]

theorem OnRay.nearer {a b : ℝ} {t t' : EReal} (h' : OnRay a b t' p') (h : OnRay a b t p)
    (h0 : 0 ≤ t') (hle : t' ≤ t) : Nearer p' p :=
  ⟨abs_le_of_share h'.isNumber_x h.isNumber_x h'.value_x h.value_x h0 hle,
    abs_le_of_share h'.isNumber_y h.isNumber_y h'.value_y h.value_y h0 hle⟩

/-- **A ray is accepted up to an edge**, and not behind it. -/
theorem exists_edge (g : Arm circular) (a b : ℝ) :
    ∃ edge : EReal, ∀ (t : EReal) (p : Planar Float), 0 ≤ t → OnRay a b t p →
      (t < edge → g.Accepts p) ∧ (edge < t → ¬ g.Accepts p) := by
  -- the edge itself can fall on either side, so it is a supremum and not a largest point
  refine ⟨sSup {t | 0 ≤ t ∧ ∃ p, OnRay a b t p ∧ g.Accepts p}, fun t p h0 hp => ⟨?_, ?_⟩⟩
  · intro hlt
    obtain ⟨far, ⟨-, q, hq, haccepts⟩, hfar⟩ := lt_sSup_iff.mp hlt
    exact haccepts.of_nearer (hp.nearer hq h0 hfar.le)
  · intro hlt haccepts
    exact hlt.not_ge (le_sSup ⟨h0, p, hp, haccepts⟩)

/--
**The points that an arm accepts have no gaps.**

With a point it accepts all that are nearer in both coordinates, and without a point none that is
farther out in both. The coordinates may change places and signs. Along a ray from the base there
is one edge: what is nearer than the edge is accepted, and what is behind it is not.
-/
theorem accepted_without_gaps (g : Arm circular) :
    (∀ p p' : Planar Float, Nearer p' p → g.Accepts p → g.Accepts p')
      ∧ (∀ p p' : Planar Float, Nearer p p' → ¬ g.Accepts p → ¬ g.Accepts p')
      ∧ (∀ x y : Float, (g.Accepts ⟨y, x⟩ ↔ g.Accepts ⟨x, y⟩)
        ∧ (g.Accepts ⟨-x, y⟩ ↔ g.Accepts ⟨x, y⟩) ∧ (g.Accepts ⟨x, -y⟩ ↔ g.Accepts ⟨x, y⟩))
      ∧ ∀ a b : ℝ,
        (∀ (t t' : EReal) (p p' : Planar Float), OnRay a b t p → OnRay a b t' p' → 0 ≤ t' → t' ≤ t →
          g.Accepts p → g.Accepts p')
        ∧ ∃ edge : EReal, ∀ (t : EReal) (p : Planar Float), 0 ≤ t → OnRay a b t p →
          (t < edge → g.Accepts p) ∧ (edge < t → ¬ g.Accepts p) :=
  ⟨fun _ _ hnear h => h.of_nearer hnear, fun _ _ hnear h h' => h (h'.of_nearer hnear),
    fun x y => ⟨accepts_swap x y, accepts_neg_left x y, accepts_neg_right x y⟩,
    fun a b => ⟨fun _ _ _ _ hp hp' h0 hle h => h.of_nearer (hp'.nearer hp h0 hle),
      g.exists_edge a b⟩⟩

/-- Some points of a ray in a whole direction. -/
theorem onRay_ofInt (a b n : ℤ) : OnRay a b (n : ℝ) ⟨ofInt (n * a), ofInt (n * b)⟩ := by
  refine ⟨isNumber_ofInt _, isNumber_ofInt _, ?_, ?_⟩
  · rw [value_ofInt_eq, ← EReal.coe_mul, Int.cast_mul]
  · rw [value_ofInt_eq, ← EReal.coe_mul, Int.cast_mul]

/-- Links of 300 and 200 millimetres accept the point `(300, 400)` at their very reach, and with it
`(-200, 400)`; they refuse `(301, 400)`, and with it `(301, 500)`. -/
theorem accepted_without_gaps_at_half_a_metre :
    let g : Arm .level := @Geometry.mk Float (scalar .level) (ofInt 300) (ofInt 200) .up .absolute
      (by decide +kernel) (by decide +kernel)
    (Nearer ⟨ofInt (-200), ofInt 400⟩ ⟨ofInt 300, ofInt 400⟩ ∧ g.Accepts ⟨ofInt 300, ofInt 400⟩
        ∧ g.Accepts ⟨ofInt (-200), ofInt 400⟩)
      ∧ (Nearer ⟨ofInt 301, ofInt 400⟩ ⟨ofInt 301, ofInt 500⟩ ∧ ¬ g.Accepts ⟨ofInt 301, ofInt 400⟩
        ∧ ¬ g.Accepts ⟨ofInt 301, ofInt 500⟩)
      ∧ ∃ edge : EReal, ((100 : ℤ) : ℝ) ≤ edge ∧ edge ≤ ((101 : ℤ) : ℝ) := by
  intro g
  obtain ⟨hnearer, hfarther, -, hray⟩ := g.accepted_without_gaps
  have hrim : g.Accepts ⟨ofInt 300, ofInt 400⟩ := accepts_iff_reaches.mpr (by decide +kernel)
  have hout : ¬ g.Accepts ⟨ofInt 301, ofInt 400⟩ := mt accepts_iff_reaches.mp (by decide +kernel)
  have hin : Nearer ⟨ofInt (-200), ofInt 400⟩ ⟨ofInt 300, ofInt 400⟩ := by
    unfold Nearer
    decide +kernel
  have hup : Nearer ⟨ofInt 301, ofInt 400⟩ ⟨ofInt 301, ofInt 500⟩ := by
    unfold Nearer
    decide +kernel
  refine ⟨⟨hin, hrim, hnearer _ _ hin hrim⟩, ⟨hup, hout, hfarther _ _ hup hout⟩, ?_⟩
  obtain ⟨-, edge, hedge⟩ := hray (3 : ℤ) (4 : ℤ)
  have hbehind : ¬ g.Accepts ⟨ofInt (101 * 3), ofInt (101 * 4)⟩ :=
    mt accepts_iff_reaches.mp (by decide +kernel)
  refine ⟨edge, not_lt.mp fun hlt => ?_, not_lt.mp fun hlt => ?_⟩
  · exact (hedge _ _ (by norm_num) (onRay_ofInt 3 4 100)).2 hlt hrim
  · exact hbehind ((hedge _ _ (by norm_num) (onRay_ofInt 3 4 101)).1 hlt)

end Arm

end ScaraArm.Binary64
