import ScaraArm.Proofs.Real.Pieces

/-!
# Lines within reach

The arm stands in its disc, whatever its joints are, and the disc is convex. So a line to a
target in the disc never leaves it, and a line to a target outside leaves it once and for all:
if some point of the line is in the disc, so is every point before it. What the line hands out
before its one failure is therefore all there is of it within reach.
-/

namespace ScaraArm

variable {k : Nat}

namespace Position

/-- The point of the plane that the tip is at. -/
def tip (p : Position ℝ k) : ℂ := Planar.toComplex ⟨p.x, p.y⟩

theorem tip_between (p q : Position ℝ k) (t : ℝ) :
    (p.between q t).tip = AffineMap.lineMap p.tip q.tip t := by
  rw [AffineMap.lineMap_apply, vadd_eq_add, vsub_eq_sub, Complex.real_smul, add_comm]
  apply Complex.ext
  · rw [Complex.add_re, Complex.re_ofReal_mul]
    rfl
  · rw [Complex.add_im, Complex.im_ofReal_mul]
    rfl

end Position

namespace Geometry

variable {g : Geometry ℝ} {p q : Position ℝ k}

/-- The position is in the disc that the arm sweeps. -/
def InDisc (g : Geometry ℝ) (p : Position ℝ k) : Prop :=
  p.x ^ 2 + p.y ^ 2 ≤ (g.lower + g.upper) ^ 2

/-- **Inverse kinematics accepts exactly the disc.** -/
theorem solves_iff_inDisc : g.Solves p ↔ g.InDisc p := by
  rw [solves_iff, reaches_iff, InDisc, pow_two, pow_two, pow_two]

theorem inDisc_iff_mem_closedBall :
    g.InDisc p ↔ p.tip ∈ Metric.closedBall 0 (g.lower + g.upper) := by
  have hreach : 0 ≤ g.lower + g.upper := (add_pos g.lower_pos' g.upper_pos').le
  rw [mem_closedBall_zero_iff, ← pow_le_pow_iff_left₀ (norm_nonneg _) hreach two_ne_zero,
    Position.tip, Planar.sq_norm_toComplex, InDisc, pow_two p.x, pow_two p.y]

/-- The arm stands in its disc, whatever its joints are. -/
theorem inDisc_position (g : Geometry ℝ) (joints : Joints ℝ k) : g.InDisc (g.position joints) := by
  rw [inDisc_iff_mem_closedBall, mem_closedBall_zero_iff]
  show ‖(g.forward ⟨joints.q1, joints.q2⟩).toComplex‖ ≤ _
  rw [norm_toComplex_forward]
  exact (g.norm_bent_mem _).2

/-- The way between two positions in the disc stays in it. -/
theorem InDisc.between (hp : g.InDisc p) (hq : g.InDisc q) {t : ℝ} (ht : t ∈ Set.Icc 0 1) :
    g.InDisc (p.between q t) := by
  rw [inDisc_iff_mem_closedBall] at hp hq ⊢
  rw [Position.tip_between]
  exact (convex_closedBall _ _).lineMap_mem hp hq ht

end Geometry

namespace Segmenter

variable {s : Segmenter ℝ} {target : Position ℝ k} {joints : Joints ℝ k} {n i j : Nat}

/-- **A line that is in the disc was in it before.** -/
theorem inDisc_referencePoint (hij : i ≤ j) (hj : j ≤ n)
    (h : s.geometry.InDisc (s.referencePoint target joints n j)) :
    s.geometry.InDisc (s.referencePoint target joints n i) := by
  have hstart := s.geometry.inDisc_position joints
  rcases Nat.eq_zero_or_pos j with hzero | hpos
  · rw [show i = j by omega]
    exact h
  · have hshare : ((i : ℝ) / n) = i / j * (j / n) := by
      rw [div_mul_div_cancel₀ (Nat.cast_ne_zero.mpr hpos.ne')]
    rw [s.referencePoint_eq target joints (by omega) hj] at h
    rw [s.referencePoint_eq target joints (by omega) (hij.trans hj), hshare,
      ← Position.between_between]
    refine hstart.between h ⟨by positivity, ?_⟩
    exact div_le_one_of_le₀ (Nat.cast_le.mpr hij) (Nat.cast_nonneg _)

theorem referencePoint_last : s.referencePoint target joints n n = target :=
  referencePoint_of_le (Nat.le_refl n)

end Segmenter

/--
**A line between points within reach is handed out to its end.**

A line to a target out of reach ends with one failure, at the first point out of reach, and
the points it handed out before are all that are within.
-/
theorem line_within_reach {s : Segmenter ℝ} (hL : 0 < s.maxLength) (target : Position ℝ k)
    (joints : Joints ℝ k) (rapid : Bool) :
    let line := s.start target joints rapid
    let n := line.iterations
    let w := s.referencePoint target joints n
    let reach := s.geometry.lower + s.geometry.upper
    let inside (p : Position ℝ k) : Prop := p.x ^ 2 + p.y ^ 2 ≤ reach ^ 2
    let handsOut (i : Nat) : Prop :=
      ∃ q, s.geometry.joints (w (i + 1)) = .ok q ∧ line.taken Session.never i = .waypoint q
    (inside target →
        (∀ i < n, handsOut i) ∧ ∀ i, n ≤ i → line.taken Session.never i = .finished)
      ∧ (¬ inside target → ∃ i < n,
        (∀ j < i, handsOut j)
          ∧ line.taken Session.never i = .unreachable ⟨(w (i + 1)).x, (w (i + 1)).y, reach⟩
          ∧ (∀ j, i < j → line.taken Session.never j = .finished)
          ∧ ∀ j < n, (inside (w (j + 1)) ↔ j < i)) := by
  intro line n w reach inside handsOut
  have hn : 1 ≤ n := Segmenter.one_le_iterations hL
  have hrun : line.RunsThrough w := (s.start_visits target joints rapid).runsThrough rfl hn
  have hlast : w n = target := Segmenter.referencePoint_last
  have hsolves : ∀ i, line.geometry.Solves (w i) ↔ inside (w i) :=
    fun i => Geometry.solves_iff_inDisc
  have hback : ∀ i j, i ≤ j → j ≤ n → inside (w j) → inside (w i) :=
    fun i j hij hj => Segmenter.inDisc_referencePoint hij hj
  have hhands : ∀ i < n, (∀ j ≤ i, inside (w (j + 1))) → handsOut i := by
    intro i hi hin
    obtain ⟨q, hq⟩ := (hsolves _).mpr (hin i (Nat.le_refl i))
    exact ⟨q, hq, hrun.taken_of_ok hi (fun j hj => (hsolves _).mpr (hin j hj.le)) hq⟩
  refine ⟨fun hin => ⟨fun i hi => ?_, fun i hi => hrun.silent i (Or.inl hi)⟩, fun hout => ?_⟩
  · refine hhands i hi fun j hj => hback (j + 1) n (by omega) (Nat.le_refl n) ?_
    rw [hlast]
    exact hin
  · have hfail : ¬ line.geometry.Solves (w n) := by
      rw [hsolves, hlast]
      exact hout
    obtain ⟨i, ⟨e, he⟩, -⟩ := hrun.existsUnique_failure hn hfail
    obtain ⟨hi, hfirst, hbefore⟩ := hrun.failure he
    refine ⟨i, hi, fun j hj => ?_, hrun.taken_of_not_solves hi hbefore hfirst,
      fun j hj => hrun.silent j (Or.inr ⟨i, hj, hi, hfirst⟩), fun j hj => ⟨fun hin => ?_, ?_⟩⟩
    · exact hhands j (by omega) fun m hm => (hsolves _).mp (hbefore m (by omega))
    · -- a point within reach has no point out of reach before it
      by_contra hle
      refine hfirst ((hsolves _).mpr (hback (i + 1) (j + 1) (by omega) hj hin))
    · exact fun hj => (hsolves _).mp (hbefore j hj)

/-- A line that starts on the rim of the disc, runs through it and back to the rim, hands out
the two points it has there and reports the third. -/
theorem line_across_the_rim :
    let s : Segmenter ℝ := .forArm Geometry.holed 0
    let line := s.start (⟨⟨0, -8, #v[]⟩⟩ : Position ℝ 0) ⟨⟨0, 0, #v[]⟩⟩ false
    0 < s.maxLength ∧ line.iterations = 5
      ∧ (∃ q, line.taken Session.never 0 = .waypoint q)
      ∧ (∃ q, line.taken Session.never 1 = .waypoint q)
      ∧ line.taken Session.never 2 = .unreachable ⟨8 / 5, -24 / 5, 4⟩
      ∧ line.taken Session.never 3 = .finished := by
  intro s line
  have hL : s.maxLength = 2 := Int.cast_ofNat 2
  have hpos : 0 < s.maxLength := by
    rw [hL]
    exact two_pos
  have hstart : s.geometry.position (⟨⟨0, 0, #v[]⟩⟩ : Joints ℝ 0) = ⟨⟨4, 0, #v[]⟩⟩ :=
    Geometry.position_holed _
  have hfive : line.iterations = 5 := by
    have hdist : (s.geometry.position (⟨⟨0, 0, #v[]⟩⟩ : Joints ℝ 0)).planarDist ⟨⟨0, -8, #v[]⟩⟩
        = √80 := by
      rw [hstart]
      show √(((0 : ℝ) - 4) ^ 2 + (-8 - 0) ^ 2) = √80
      norm_num
    have hbound : ∀ n : ℕ, √80 ≤ n * s.maxLength ↔ 80 ≤ (n * 2 : ℝ) ^ 2 := by
      intro n
      rw [hL, Real.sqrt_le_left (by positivity)]
    have hleast := @Segmenter.isLeast_iterations 0 s ⟨⟨0, -8, #v[]⟩⟩ ⟨⟨0, 0, #v[]⟩⟩ hpos
    simp only [hdist, hbound] at hleast
    refine (hleast ?_).unique ⟨⟨by norm_num, by norm_num⟩, fun n hn => ?_⟩
    · have hmany : (5 : ℝ) ≤ Segmenter.maxPieces := Nat.ofNat_le_cast.mpr (by decide)
      nlinarith
    · by_contra hlt
      have hfour : (n : ℝ) ≤ 4 := Nat.cast_le_ofNat.mpr (by omega)
      have hzero : (0 : ℝ) ≤ n := Nat.cast_nonneg n
      nlinarith [hn.2]
  obtain ⟨-, hout⟩ := line_within_reach hpos (⟨⟨0, -8, #v[]⟩⟩ : Position ℝ 0)
    ⟨⟨0, 0, #v[]⟩⟩ false
  rw [show (s.start (⟨⟨0, -8, #v[]⟩⟩ : Position ℝ 0) ⟨⟨0, 0, #v[]⟩⟩ false).iterations = 5
    from hfive] at hout
  have hw : ∀ j < 5, s.referencePoint (⟨⟨0, -8, #v[]⟩⟩ : Position ℝ 0) ⟨⟨0, 0, #v[]⟩⟩ 5 (j + 1)
      = ⟨⟨4 + (j + 1 : ℕ) / (5 : ℕ) * (0 - 4), 0 + (j + 1 : ℕ) / (5 : ℕ) * (-8 - 0), #v[]⟩⟩ := by
    intro j hj
    rw [s.referencePoint_eq _ _ (by norm_num) (by omega), hstart]
    exact Position.ext_axes rfl rfl fun i hi => absurd hi (Nat.not_lt_zero i)
  obtain ⟨i, hi, hhands, hfail, hsilent, hinside⟩ := hout (by
    show ¬ (0 : ℝ) ^ 2 + (-8) ^ 2 ≤ (3 + 1) ^ 2
    norm_num)
  have hmem : ∀ j < 5, (4 + (j + 1 : ℕ) / (5 : ℕ) * (0 - 4) : ℝ) ^ 2
      + (0 + (j + 1 : ℕ) / (5 : ℕ) * (-8 - 0)) ^ 2 ≤ (3 + 1) ^ 2 ↔ j < i := by
    intro j hj
    have h := hinside j hj
    rw [hw j hj] at h
    exact h
  have hsecond : 1 < i := (hmem 1 (by norm_num)).mp (by norm_num)
  have hthird : ¬ 2 < i := fun h => absurd ((hmem 2 (by norm_num)).mpr h) (by norm_num)
  have hi : i = 2 := by omega
  subst hi
  obtain ⟨q, -, hq⟩ := hhands 0 two_pos
  obtain ⟨q', -, hq'⟩ := hhands 1 one_lt_two
  refine ⟨hpos, hfive, ⟨q, hq⟩, ⟨q', hq'⟩, ?_, hsilent 3 (by norm_num)⟩
  rw [hfail, hw 2 (by norm_num)]
  show Pull.unreachable (Unreachable.mk ((4 : ℝ) + (2 + 1 : ℕ) / (5 : ℕ) * (0 - 4))
    (0 + (2 + 1 : ℕ) / (5 : ℕ) * (-8 - 0)) (3 + 1)) = _
  norm_num

end ScaraArm
