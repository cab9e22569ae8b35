import Mathlib
import ScaraArm.Kinematics
import ScaraArm.Proofs.Binary64.Bounded

/-!
# When inverse kinematics can be relied on

Inverse kinematics is to answer with finite angles or to refuse, and to refuse a point that
has an infinite or undefined coordinate. In doubles that is a matter of the links. A point
is accepted when the squared distance is at most the squared reach; if the squared reach is
infinite, so may the distance be. And the cosine of the bend is a quotient by twice the
product of the links; if that is rounded to zero, the point at the end of the longer link
asks for zero by zero.

These two are the only ways to go wrong. If the squared reach is finite, every square and
product in the cosine is bounded by it, an accepted point has finite coordinates, and the
numerator is a number. If moreover the denominator is not zero, so is the cosine. Everything
behind it is bounded by a few turns.
-/

namespace ScaraArm.Binary64

/-! ## The functions of the circle -/

/-- Half a turn in radians, rounded to a double. -/
def halfTurn : Float := .ofBits 0x400921FB54442D18

/-- What is documented of the functions of the circle on doubles, as far as it matters
here: their ranges, and that no angle has an undefined cosine. -/
structure Circular.Ranges (circular : Circular) : Prop where
  /-- A sine is at most one. -/
  sin : ∀ a : Float, a.isFinite = true → Within (ofInt 1) (circular.sin a)
  /-- The angle of a cosine is at most half a turn. -/
  acos : ∀ c : Float, Within (ofInt 1) c → Within halfTurn (circular.acos c)
  /-- No angle has an undefined cosine. -/
  acos_undefined : ∀ c : Float, c.isNaN = true → (circular.acos c).isNaN = true
  /-- A bearing is at most half a turn to either side. -/
  atan2 : ∀ y x : Float, y.isFinite = true → x.isFinite = true →
    Within halfTurn (circular.atan2 y x)

theorem Within.bounded_one {x : Float} (h : Within (ofInt 1) x) : Bounded x (1 : ℕ) :=
  h.bounded (by decide +kernel) (by norm_num)

theorem Within.bounded_halfTurn {x : Float} (h : Within halfTurn x) : Bounded x (4 : ℕ) :=
  h.bounded (by decide +kernel) (by norm_num)

/-- Functions of the circle that know no angle but zero. -/
def Circular.level : Circular where
  sin _ := ofInt 0
  cos _ := ofInt 1
  acos c := if c.isNaN then c else ofInt 0
  atan2 _ _ := ofInt 0

theorem within_zero : Within (ofInt 1) (ofInt 0) ∧ Within halfTurn (ofInt 0) := by
  unfold Within
  decide +kernel

theorem Circular.ranges_level : Circular.level.Ranges where
  sin _ _ := within_zero.1
  acos c hc := by
    have hnumber : ¬ c.isNaN = true := fun h => isNaN_iff.mp h (le_iff.mp hc.2).1
    show Within halfTurn (if c.isNaN then c else ofInt 0)
    rw [if_neg hnumber]
    exact within_zero.2
  acos_undefined c hc := by
    show (if c.isNaN then c else ofInt 0).isNaN = true
    rwa [if_pos hc]
  atan2 _ _ _ _ := within_zero.2

/-! ## The links -/

/-- The reach of two links, rounded once. -/
noncomputable def span (a b : ℝ) : ℝ := snap (a + b)

/-- The squared reach of two links is a finite double. -/
def Fits (a b : ℝ) : Prop := snap (span a b * span a b) < (2 : ℕ) ^ 1024

section

variable {a b : ℝ}

theorem span_comm : span a b = span b a := by
  rw [span, span, add_comm]

theorem le_span (ha : Dyadic a) (hb : 0 < b) : a ≤ span a b := by
  calc a = snap a := (snap_of_dyadic ha).symm
    _ ≤ snap (a + b) := snap_mono (by linarith)

/-- The shorter link fits twice into the reach. -/
theorem two_mul_le_span (ha : Dyadic a) (h : a ≤ b) : 2 * a ≤ span a b := by
  calc 2 * a = snap (2 * a) := (snap_of_dyadic ha.two_mul).symm
    _ ≤ snap (a + b) := snap_mono (by linarith)

/-- Twice the product of the links is at most the squared reach. -/
theorem two_mul_mul_le (ha : Dyadic a) (hb : Dyadic b) (ha0 : 0 < a) (hb0 : 0 < b) :
    2 * a * b ≤ span a b * span a b := by
  have hla := le_span ha hb0
  have hlb : b ≤ span a b := span_comm ▸ le_span hb ha0
  rcases le_total a b with h | h
  · exact mul_le_mul (two_mul_le_span ha h) hlb hb0.le (ha0.le.trans hla)
  · have := two_mul_le_span hb h
    rw [span_comm] at this
    calc 2 * a * b = a * (2 * b) := by ring
      _ ≤ span a b * span a b := mul_le_mul hla this (by linarith) (ha0.le.trans hla)

theorem Fits.span_lt (h : Fits a b) : span a b < 2 ^ 512 := by
  by_contra hge
  have hsq : (2 : ℝ) ^ 1024 ≤ span a b * span a b := by
    calc (2 : ℝ) ^ 1024 = 2 ^ 512 * 2 ^ 512 := by rw [← pow_add]
      _ ≤ span a b * span a b :=
        mul_self_le_mul_self (by positivity) (not_lt.mp hge)
  have hpow : Dyadic ((2 : ℝ) ^ 1024) := by
    have := dyadic_zpow (k := 1024) (by norm_num)
    rwa [show ((1024 : ℤ)) = ((1024 : ℕ) : ℤ) from rfl, zpow_natCast] at this
  have := snap_mono hsq
  rw [snap_of_dyadic hpow] at this
  exact absurd h this.not_gt

/-- What is at most the squared reach is rounded to a finite double. -/
theorem Fits.snap_lt (h : Fits a b) {r : ℝ} (hr : r ≤ span a b * span a b) :
    snap r < 2 ^ 1024 := (snap_mono hr).trans_lt h

end

/-! ## The reach and the denominator -/

section

variable {l u : Float} {a b : ℝ}

theorem isNumber_reach (hl : Measures l a) (hu : Measures u b) : IsNumber (l + u) :=
  isNumber_add hl.bounded.1 hu.isFinite

theorem value_reach (hl : Measures l a) (hu : Measures u b) :
    value (l + u) = nearest (a + b : ℝ) := by
  rw [value_add (isNumber_reach hl hu), hl.value_eq, hu.value_eq, EReal.coe_add]

theorem Fits.value_reach (h : Fits a b) (hl : Measures l a) (hu : Measures u b) :
    value (l + u) = span a b := by
  refine (Binary64.value_reach hl hu).trans (nearest_of_abs_lt ?_)
  show |span a b| < 2 ^ 1024
  rw [abs_of_nonneg (hl.pos.le.trans (le_span hl.dyadic hu.pos))]
  exact h.span_lt.trans (pow_lt_pow_right₀ one_lt_two (by omega))

/-- **The squared reach is finite just if it fits.** -/
theorem isFinite_reach_sq_iff (hl : Measures l a) (hu : Measures u b) :
    ((l + u) * (l + u)).isFinite = true ↔ Fits a b := by
  have hnumber := isNumber_mul_self (isNumber_reach hl hu)
  have hsq := value_mul hnumber
  have hspan : 0 ≤ span a b := hl.pos.le.trans (le_span hl.dyadic hu.pos)
  rw [value_reach hl hu, nearest_of_nonneg (add_pos hl.pos hu.pos).le] at hsq
  change _ = nearest ((if span a b < 2 ^ 1024 then (span a b : EReal) else ⊤)
    * (if span a b < 2 ^ 1024 then (span a b : EReal) else ⊤)) at hsq
  by_cases hlt : span a b < 2 ^ 1024
  · rw [if_pos hlt, ← EReal.coe_mul] at hsq
    exact isFinite_iff_snap_lt hnumber hsq (mul_nonneg hspan hspan)
  · rw [if_neg hlt, EReal.top_mul_top, nearest_top] at hsq
    refine iff_of_false (fun hfin => ?_) fun hfits => hlt ?_
    · obtain ⟨r, hr, -⟩ := exists_real hfin
      exact EReal.coe_ne_top r (hr.symm.trans hsq)
    · exact hfits.span_lt.trans (pow_lt_pow_right₀ one_lt_two (by omega))

theorem Fits.isFinite_sq {x : Float} {c : ℝ} (h : Fits a b) (hx : Measures x c)
    (hle : c ≤ span a b) : (x * x).isFinite = true := by
  refine (hx.bounded.mul hx.bounded (h.snap_lt ?_)).isFinite
  exact mul_self_le_mul_self hx.pos.le hle

/-- The denominator of the cosine is twice the product of the links, rounded once. -/
theorem value_denominator (hl : Measures l a) (hu : Measures u b) (h : Fits a b) :
    (ofInt 2 * l * u).isFinite = true ∧ value (ofInt 2 * l * u) = snap (2 * a * b) := by
  have htwo : (ofInt 2).isFinite = true := by decide +kernel
  have hdouble : value (ofInt 2 * l) = (2 * a : ℝ) := by
    have hsmall : 2 * a < 2 ^ 1024 := by
      calc 2 * a < 2 * 2 ^ 512 :=
            mul_lt_mul_of_pos_left ((le_span hl.dyadic hu.pos).trans_lt h.span_lt) two_pos
        _ = 2 ^ 513 := (pow_succ' 2 512).symm
        _ ≤ 2 ^ 1024 := pow_le_pow_right₀ one_le_two (by omega)
    rw [value_mul (isNumber_mul htwo hl.isFinite), value_ofInt (by norm_num), hl.value_eq,
      ← EReal.coe_mul]
    refine nearest_of_dyadic (by exact_mod_cast hl.dyadic.two_mul) ?_
    rw [abs_of_pos (by have := hl.pos; positivity)]
    exact_mod_cast hsmall
  have hfin : (ofInt 2 * l).isFinite = true :=
    isFinite_of_value (isNumber_mul htwo hl.isFinite) hdouble
  have hnumber := isNumber_mul hfin hu.isFinite
  have hvalue : value (ofInt 2 * l * u) = snap (2 * a * b) := by
    rw [value_mul hnumber, hdouble, hu.value_eq, ← EReal.coe_mul]
    refine nearest_of_abs_lt ?_
    rw [abs_snap, abs_of_pos (mul_pos (mul_pos two_pos hl.pos) hu.pos)]
    exact h.snap_lt (two_mul_mul_le hl.dyadic hu.dyadic hl.pos hu.pos)
  exact ⟨isFinite_of_value hnumber hvalue, hvalue⟩

/-- The denominator is positive unless it is rounded to zero. -/
theorem denominator_pos_iff (hl : Measures l a) (hu : Measures u b) (h : Fits a b) :
    ofInt 0 < ofInt 2 * l * u ↔ snap (2 * a * b) ≠ 0 := by
  obtain ⟨hfin, hvalue⟩ := value_denominator hl hu h
  have hnonneg : 0 ≤ snap (2 * a * b) :=
    snap_nonneg (mul_pos (mul_pos two_pos hl.pos) hu.pos).le
  rw [lt_iff, value_ofInt (by norm_num), hvalue, EReal.coe_lt_coe_iff, Int.cast_zero]
  exact ⟨fun h => h.2.2.ne', fun h => ⟨isNumber_ofInt 0, isNumber_of_isFinite hfin,
    hnonneg.lt_of_ne' h⟩⟩

/-! ## The cosine -/

/-- The cosine of the bend, before it is pulled back. -/
def rawCosine (l u squared : Float) : Float :=
  (squared - l * l - u * u) / (ofInt 2 * l * u)

/-- **The cosine is a number when the squared reach is finite and the denominator is not
zero.** -/
theorem isNumber_rawCosine (hl : Measures l a) (hu : Measures u b) (h : Fits a b)
    (hpos : ofInt 0 < ofInt 2 * l * u) {squared : Float} (hs : IsNumber squared) :
    IsNumber (rawCosine l u squared) := by
  obtain ⟨hfin, hvalue⟩ := value_denominator hl hu h
  have hsql := h.isFinite_sq hl (le_span hl.dyadic hu.pos)
  have hsqu := h.isFinite_sq hu (span_comm ▸ le_span hu.dyadic hl.pos)
  refine isNumber_div (isNumber_sub (isNumber_sub hs hsql) hsqu) hfin ?_
  rw [hvalue]
  exact EReal.coe_ne_zero.mpr ((denominator_pos_iff hl hu h).mp hpos)

end

theorem clampUnit_eq (circular : Circular) (c : Float) :
    @Scalar.clampUnit Float (scalar circular) c
      = if c < ofInt (-1) then ofInt (-1) else if ofInt 1 < c then ofInt 1 else c := by
  show (if decide (c < ofInt (-1)) = true then ofInt (-1)
    else if decide (ofInt 1 < c) = true then ofInt 1 else c) = _
  simp only [decide_eq_true_iff]

/-- A number is pulled back to a cosine. -/
theorem within_clampUnit (circular : Circular) {c : Float} (hc : IsNumber c) :
    Within (ofInt 1) (@Scalar.clampUnit Float (scalar circular) c) := by
  have hone : value (ofInt 1) = (1 : ℝ) := by
    rw [value_ofInt (by norm_num), Int.cast_one]
  have hminus : value (ofInt (-1)) = (-1 : ℝ) := by
    rw [value_ofInt (by norm_num), Int.cast_neg, Int.cast_one]
  have hneg : value (-ofInt 1) = value (ofInt (-1)) := by
    rw [value_neg, hone, hminus, EReal.coe_neg]
  have hnumber : IsNumber (-ofInt 1) := isNumber_neg.mpr (isNumber_ofInt 1)
  have hle : value (ofInt (-1)) ≤ value (ofInt 1) := by
    rw [hone, hminus]
    exact EReal.coe_le_coe_iff.mpr (by norm_num)
  rw [clampUnit_eq, Within, le_iff, le_iff, hneg]
  split_ifs with hlow hhigh
  · exact ⟨⟨hnumber, isNumber_ofInt _, le_rfl⟩, isNumber_ofInt _, isNumber_ofInt _, hle⟩
  · exact ⟨⟨hnumber, isNumber_ofInt _, hle⟩, isNumber_ofInt _, isNumber_ofInt _, le_rfl⟩
  · refine ⟨⟨hnumber, hc, not_lt.mp fun hlt => ?_⟩, hc, isNumber_ofInt _, not_lt.mp fun hlt => ?_⟩
    · exact hlow (lt_iff.mpr ⟨hc, isNumber_ofInt _, hlt⟩)
    · exact hhigh (lt_iff.mpr ⟨isNumber_ofInt _, hc, hlt⟩)

/-- What is undefined stays so. -/
theorem clampUnit_of_not_isNumber (circular : Circular) {c : Float} (hc : ¬ IsNumber c) :
    @Scalar.clampUnit Float (scalar circular) c = c := by
  rw [clampUnit_eq, if_neg fun h => hc (lt_iff.mp h).1, if_neg fun h => hc (lt_iff.mp h).2.1]

/-! ## Arms in doubles -/

/-- An arm in doubles, with the given functions of the circle. -/
abbrev Arm (circular : Circular) : Type := @Geometry Float (scalar circular)

namespace Arm

variable {circular : Circular}

/-- One radian in degrees, rounded to a double. -/
abbrev degreesPerRadian : Float := @Scalar.degreesPerRadian Float (scalar .native)

abbrev lower (g : Arm circular) : Float := @Geometry.lower Float (scalar circular) g

abbrev upper (g : Arm circular) : Float := @Geometry.upper Float (scalar circular) g

abbrev elbow (g : Arm circular) : Elbow := @Geometry.elbow Float (scalar circular) g

abbrev convention (g : Arm circular) : AngleConvention :=
  @Geometry.convention Float (scalar circular) g

abbrev reach (g : Arm circular) : Float := @Geometry.reach Float (scalar circular) g

abbrev reaches (g : Arm circular) (p : Planar Float) : Bool :=
  @Geometry.reaches Float (scalar circular) g p

abbrev inverse (g : Arm circular) (p : Planar Float) :
    Except (Unreachable Float) (JointPair Float) :=
  @Geometry.inverse Float (scalar circular) g p

abbrev direction (g : Arm circular) (p : Planar Float) : Float :=
  @Geometry.direction Float (scalar circular) g p

abbrev turn (g : Arm circular) (p : Planar Float) : Float :=
  @Geometry.turn Float (scalar circular) g p

/-- What inverse kinematics promises: its angles are finite, and a point with an infinite
or undefined coordinate is refused. -/
structure Reliable (g : Arm circular) : Prop where
  /-- An answer consists of finite angles. -/
  finite : ∀ (p : Planar Float) (q : JointPair Float), g.inverse p = .ok q →
    q.q1.isFinite = true ∧ q.q2.isFinite = true
  /-- A point that is not finite is refused. -/
  refuses : ∀ p : Planar Float, ¬ (p.x.isFinite = true ∧ p.y.isFinite = true) →
    ∃ e, g.inverse p = .error e

/-- The cosine of the bend at a point. -/
def cosine (g : Arm circular) (p : Planar Float) : Float :=
  @Scalar.clampUnit Float (scalar circular)
    (rawCosine g.lower g.upper (p.x * p.x + p.y * p.y))

theorem reaches_iff {g : Arm circular} {p : Planar Float} :
    g.reaches p = true ↔ p.x * p.x + p.y * p.y ≤ g.reach * g.reach := by
  show decide (p.x * p.x + p.y * p.y ≤ g.reach * g.reach) = true ↔ _
  exact decide_eq_true_iff

/-- The direction of the lower link, in plain doubles. -/
theorem direction_eq (g : Arm circular) (p : Planar Float) :
    g.direction p
      = match g.elbow with
        | .up => circular.atan2 p.y p.x + circular.atan2
            (g.upper * circular.sin (circular.acos (g.cosine p))) (g.lower + g.upper * g.cosine p)
        | .down => circular.atan2 p.y p.x - circular.atan2
            (g.upper * circular.sin (circular.acos (g.cosine p)))
            (g.lower + g.upper * g.cosine p) := rfl

/-- The turn between the links, in plain doubles. -/
theorem turn_eq (g : Arm circular) (p : Planar Float) :
    g.turn p = match g.elbow with
      | .up => -circular.acos (g.cosine p)
      | .down => circular.acos (g.cosine p) := rfl

/-- The two answers, in plain doubles. -/
theorem inverse_eq {g : Arm circular} {p : Planar Float} (h : g.reaches p = true) :
    g.inverse p = .ok ⟨g.direction p * degreesPerRadian,
      (match g.convention with
        | .absolute => g.direction p + g.turn p
        | .relative => g.turn p) * degreesPerRadian⟩ :=
  @Geometry.inverse_eq Float (scalar circular) g p h

variable {g : Arm circular} {a b : ℝ}

/-- An accepted point has a finite squared distance if the squared reach is finite. -/
theorem isFinite_of_reaches (hfits : (g.reach * g.reach).isFinite = true) {p : Planar Float}
    (h : g.reaches p = true) : (p.x * p.x + p.y * p.y).isFinite = true := by
  obtain ⟨hs, -, hle⟩ := le_iff.mp (reaches_iff.mp h)
  obtain ⟨r, hr, -⟩ := exists_real hfits
  obtain ⟨hsqx, hsqy⟩ := isNumber_of_add hs
  have hnonneg : 0 ≤ value (p.x * p.x + p.y * p.y) := by
    rw [value_add hs]
    exact nearest_nonneg (add_nonneg (mul_self_nonneg_of_isNumber (isNumber_of_mul hsqx).1)
      (mul_self_nonneg_of_isNumber (isNumber_of_mul hsqy).1))
  rw [hr] at hle
  induction hv : value (p.x * p.x + p.y * p.y) with
  | bot => exact absurd (hv ▸ hnonneg) EReal.bot_lt_zero.not_ge
  | top => exact absurd (hv ▸ hle) (EReal.coe_lt_top r).not_ge
  | coe s => exact isFinite_of_value hs hv

theorem bounded_of_reaches (hc : circular.Ranges) (hl : Measures g.lower a)
    (hu : Measures g.upper b) (hfits : Fits a b) (hpos : ofInt 0 < ofInt 2 * g.lower * g.upper)
    {p : Planar Float} (h : g.reaches p = true) :
    Bounded (g.direction p) (8 : ℕ) ∧ Bounded (g.turn p) (4 : ℕ) := by
  have hs := isFinite_of_reaches ((isFinite_reach_sq_iff hl hu).mpr hfits) h
  obtain ⟨hx, hy⟩ := isFinite_of_isFinite_sq hs
  have hcos : Within (ofInt 1) (g.cosine p) := within_clampUnit circular
    (isNumber_rawCosine hl hu hfits hpos (isNumber_of_isFinite hs))
  have hbend := (hc.acos _ hcos).bounded_halfTurn
  have hsin := (hc.sin _ hbend.isFinite).bounded_one
  -- both arguments of the correction are bounded by the links
  have hside : (g.upper * circular.sin (circular.acos (g.cosine p))).isFinite = true :=
    (hu.mul_le_one hsin).isFinite
  have hbase : (g.lower + g.upper * g.cosine p).isFinite = true :=
    (hl.bounded.add (hu.mul_le_one hcos.bounded_one) (hfits.span_lt.trans
      (pow_lt_pow_right₀ one_lt_two (by omega)))).isFinite
  have hbeta := (hc.atan2 _ _ hside hbase).bounded_halfTurn
  have hbearing := (hc.atan2 _ _ hy hx).bounded_halfTurn
  rw [direction_eq, turn_eq]
  cases g.elbow with
  | up => exact ⟨hbearing.add_nat hbeta (by norm_num), hbend.neg⟩
  | down => exact ⟨hbearing.sub_nat hbeta (by norm_num), hbend⟩

/-- **Finite angles**: with a finite squared reach and a denominator above zero, whatever is
accepted is answered with finite angles. -/
theorem isFinite_of_inverse (hc : circular.Ranges) (hl : Measures g.lower a)
    (hu : Measures g.upper b) (hfits : Fits a b) (hpos : ofInt 0 < ofInt 2 * g.lower * g.upper)
    {p : Planar Float} {q : JointPair Float} (h : g.inverse p = .ok q) :
    q.q1.isFinite = true ∧ q.q2.isFinite = true := by
  cases hr : g.reaches p with
  | false =>
    have := @Geometry.inverse_of_not_reaches Float (scalar circular) g p hr
    cases this.symm.trans h
  | true =>
    obtain ⟨hdirection, hturn⟩ := bounded_of_reaches hc hl hu hfits hpos hr
    have hdegrees : Bounded degreesPerRadian (64 : ℕ) := by
      refine Within.bounded (b := degreesPerRadian) ⟨?_, ?_⟩ ?_ (by norm_num)
      all_goals decide +kernel
    obtain rfl : q = _ := (Except.ok.inj ((inverse_eq hr).symm.trans h)).symm
    refine ⟨(hdirection.mul_nat hdegrees (by norm_num)).isFinite, ?_⟩
    cases g.convention with
    | absolute =>
      have hsum := hdirection.add_nat hturn (by norm_num)
      exact (hsum.mul_nat hdegrees (by norm_num)).isFinite
    | relative => exact (hturn.mul_nat hdegrees (by norm_num)).isFinite

/-! ## The two ways to go wrong -/

/-- Infinity. -/
def infinite : Float := .ofBits 0x7FF0000000000000

/-- **An infinite point is accepted when the squared reach is infinite.** -/
theorem reaches_infinite (hl : Measures g.lower a) (hu : Measures g.upper b)
    (h : ¬ (g.reach * g.reach).isFinite = true) : g.reaches ⟨infinite, ofInt 0⟩ = true := by
  have hreach : IsNumber (g.reach * g.reach) := isNumber_mul_self (isNumber_reach hl hu)
  have hdistance : parts (infinite * infinite + ofInt 0 * ofInt 0) = .infinity .positive := by
    rfl
  refine reaches_iff.mpr (le_iff.mpr ⟨?_, hreach, ?_⟩)
  · rw [IsNumber, hdistance]
    exact fun h => by cases h
  · have htop : value (g.reach * g.reach) = ⊤ := by
      induction hv : value (g.reach * g.reach) with
      | bot =>
        have := mul_self_nonneg_of_isNumber (isNumber_reach hl hu)
        exact absurd (hv ▸ this) EReal.bot_lt_zero.not_ge
      | top => rfl
      | coe r => exact absurd (isFinite_of_value hreach hv) h
    rw [htop]
    exact le_top

/-- At the end of one link the squared distance is the square of that link. -/
theorem value_squared_end {x : Float} {c : ℝ} (hx : Measures x c) :
    IsNumber (x * x + ofInt 0 * ofInt 0) ∧ value (x * x + ofInt 0 * ofInt 0) = value (x * x) := by
  have hsq : IsNumber (x * x) := isNumber_mul_self hx.bounded.1
  have hzero : value (ofInt 0 * ofInt 0) = 0 := rfl
  have hsum : IsNumber (x * x + ofInt 0 * ofInt 0) := isNumber_add hsq (by decide +kernel)
  refine ⟨hsum, ?_⟩
  rw [value_add hsum, hzero, add_zero, nearest_value hsq]

/-- Either link reaches as far as it is long. -/
theorem reaches_end (hl : Measures g.lower a) (hu : Measures g.upper b) {x : Float} {c : ℝ}
    (hx : Measures x c) (hfits : Fits a b) (hle : c ≤ span a b) :
    g.reaches ⟨x, ofInt 0⟩ = true := by
  obtain ⟨hsum, hvalue⟩ := value_squared_end hx
  have hreach := isNumber_reach hl hu
  have hsq : IsNumber (g.reach * g.reach) := isNumber_mul_self hreach
  have hspan : value g.reach = span a b := hfits.value_reach hl hu
  refine reaches_iff.mpr (le_iff.mpr ⟨hsum, hsq, ?_⟩)
  rw [hvalue, value_mul (isNumber_mul_self hx.bounded.1), value_mul hsq, hx.value_eq, hspan,
    ← EReal.coe_mul, ← EReal.coe_mul]
  exact nearest_mono (EReal.coe_le_coe_iff.mpr (mul_self_le_mul_self hx.pos.le hle))

/-- If the denominator is rounded to zero, so is the square of the shorter link. -/
theorem value_sq_of_denominator {x : Float} {c : ℝ} (hx : Measures x c)
    (hle : c * c ≤ 2 * a * b) (h : snap (2 * a * b) = 0) : value (x * x) = 0 := by
  have hzero : snap (c * c) = 0 :=
    le_antisymm (h ▸ snap_mono hle) (snap_nonneg (mul_self_nonneg c))
  rw [value_mul (isNumber_mul_self hx.bounded.1), hx.value_eq, ← EReal.coe_mul,
    nearest_of_abs_lt (by rw [hzero]; simp), hzero, EReal.coe_zero]

/-- **At the end of the longer link the cosine is undefined when the denominator is rounded
to zero.** -/
theorem exists_undefined (hl : Measures g.lower a) (hu : Measures g.upper b)
    (hfits : Fits a b) (h : ¬ ofInt 0 < ofInt 2 * g.lower * g.upper) :
    ∃ p : Planar Float, g.reaches p = true ∧ ¬ IsNumber (g.cosine p) := by
  have hla : a ≤ span a b := le_span hl.dyadic hu.pos
  have hlb : b ≤ span a b := span_comm ▸ le_span hu.dyadic hl.pos
  have hsnap : snap (2 * a * b) = 0 := not_not.mp (mt (denominator_pos_iff hl hu hfits).mpr h)
  have hdenominator : value (ofInt 2 * g.lower * g.upper) = 0 := by
    rw [(value_denominator hl hu hfits).2, hsnap, EReal.coe_zero]
  have hundefined : ∀ p : Planar Float,
      value (p.x * p.x + p.y * p.y - g.lower * g.lower - g.upper * g.upper) = 0 →
        ¬ IsNumber (g.cosine p) := by
    intro p hnumerator
    have hraw := not_isNumber_div hnumerator hdenominator
    rwa [← clampUnit_of_not_isNumber circular hraw] at hraw
  have hsql := hfits.isFinite_sq hl hla
  have hsqu := hfits.isFinite_sq hu hlb
  rcases le_total a b with hab | hab
  · -- the upper link is the longer one
    obtain ⟨hsum, hend⟩ := value_squared_end hu
    have hzero := value_sq_of_denominator hl (by nlinarith [hl.pos]) hsnap
    refine ⟨⟨g.upper, ofInt 0⟩, reaches_end hl hu hu hfits hlb, hundefined _ ?_⟩
    have hfirst := value_sub_zero hsum hsql hzero
    exact value_sub_self (isNumber_sub hsum hsql) hsqu (hfirst.trans hend)
  · obtain ⟨hsum, hend⟩ := value_squared_end hl
    have hzero := value_sq_of_denominator hu (by nlinarith [hu.pos]) hsnap
    refine ⟨⟨g.lower, ofInt 0⟩, reaches_end hl hu hl hfits hla, hundefined _ ?_⟩
    have hfirst := value_sub_self hsum hsql hend
    exact (value_sub_zero (isNumber_sub hsum hsql) hsqu hzero).trans hfirst

/-- An undefined cosine makes the second angle undefined. -/
theorem not_isFinite_of_undefined (hc : circular.Ranges) {p : Planar Float}
    (hr : g.reaches p = true) (h : ¬ IsNumber (g.cosine p)) :
    ∃ q, g.inverse p = .ok q ∧ ¬ q.q2.isFinite = true := by
  have hbend : ¬ IsNumber (circular.acos (g.cosine p)) :=
    isNaN_iff.mp (hc.acos_undefined _ (isNaN_iff.mpr h))
  have hturn : ¬ IsNumber (g.turn p) := by
    rw [turn_eq]
    cases g.elbow with
    | up => exact fun hneg => hbend (isNumber_neg.mp hneg)
    | down => exact hbend
  refine ⟨_, inverse_eq hr, fun hfin => hturn ?_⟩
  have hangle := (isNumber_of_mul (isNumber_of_isFinite hfin)).1
  cases hconvention : g.convention with
  | absolute =>
    rw [hconvention] at hangle
    exact (isNumber_of_add hangle).2
  | relative =>
    rw [hconvention] at hangle
    exact hangle

/-- **When inverse kinematics can be relied on**: exactly when the squared reach is finite and
twice the product of the links is not rounded to zero. -/
theorem reliable_iff (hc : circular.Ranges) (g : Arm circular) :
    g.Reliable ↔ (g.reach * g.reach).isFinite = true ∧ ofInt 0 < ofInt 2 * g.lower * g.upper := by
  obtain ⟨a, hl⟩ := exists_measures circular (@Geometry.lower_pos Float (scalar circular) g)
  obtain ⟨b, hu⟩ := exists_measures circular (@Geometry.upper_pos Float (scalar circular) g)
  have hfits := isFinite_reach_sq_iff hl hu
  constructor
  · intro h
    have hreach : (g.reach * g.reach).isFinite = true := by
      by_contra hinf
      obtain ⟨q, hq⟩ := @Geometry.inverse_of_reaches Float (scalar circular) g _
        (reaches_infinite hl hu hinf)
      obtain ⟨e, he⟩ := h.refuses ⟨infinite, ofInt 0⟩ (by decide +kernel)
      cases hq.symm.trans he
    refine ⟨hreach, ?_⟩
    by_contra hzero
    obtain ⟨p, hr, hundefined⟩ := exists_undefined hl hu (hfits.mp hreach) hzero
    obtain ⟨q, hq, hq2⟩ := not_isFinite_of_undefined hc hr hundefined
    exact hq2 (h.finite p q hq).2
  · rintro ⟨hreach, hpos⟩
    refine ⟨fun p q h => isFinite_of_inverse hc hl hu (hfits.mp hreach) hpos h, fun p hp => ?_⟩
    cases hr : g.reaches p with
    | false => exact ⟨_, @Geometry.inverse_of_not_reaches Float (scalar circular) g p hr⟩
    | true => exact absurd (isFinite_of_isFinite_sq (isFinite_of_reaches hreach hr)) hp

/-- Links of 500 and 450 millimetres can be relied on. -/
theorem reliable_of_the_sample_links :
    let g : Arm .level := @Geometry.mk Float (scalar .level) (ofInt 500) (ofInt 450) .up .absolute
      (by decide +kernel) (by decide +kernel)
    Circular.level.Ranges ∧ (g.reach * g.reach).isFinite = true
      ∧ ofInt 0 < ofInt 2 * g.lower * g.upper ∧ g.Reliable
      ∧ g.inverse ⟨ofInt 950, ofInt 0⟩ = .ok ⟨ofInt 0, ofInt 0⟩ := by
  intro g
  have hreach : (g.reach * g.reach).isFinite = true := by decide +kernel
  have hpos : ofInt 0 < ofInt 2 * g.lower * g.upper := by decide +kernel
  exact ⟨Circular.ranges_level, hreach, hpos,
    (reliable_iff Circular.ranges_level g).mpr ⟨hreach, hpos⟩, by decide +kernel⟩

/-- With links of `10^200` millimetres an infinite point is accepted. -/
theorem infinite_point_of_the_endless_arm :
    let g : Arm .native := ⟨1e200, 1e200, .up, .absolute, by decide +kernel, by decide +kernel⟩
    infinite.isFinite = false ∧ ∃ q, g.inverse ⟨infinite, ofInt 0⟩ = .ok q := by
  intro g
  exact ⟨by decide +kernel,
    @Geometry.inverse_of_reaches Float (scalar .native) g _ (by decide +kernel)⟩

end Arm

end ScaraArm.Binary64
