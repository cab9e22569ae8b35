import ScaraArm.Proofs.Line.Standing

/-!
# How many pieces a line has

A line is cut up or it is not, and it has a number of pieces; both are worked out when it starts,
from one distance, and nothing later compares them. A line that is cut up into a single piece
would go to its target in one leap, and one with no pieces would hand out nothing.

Neither happens in doubles, whatever the distance is. An undefined distance is not longer than the
longest piece, so such a line is not cut up. Any other distance that is longer, by however little,
gives a quotient above one (`two_le_pieces`), and the limit catches the quotients that are too
large to count, the infinite one among them.
-/

namespace ScaraArm

variable {k : Nat}

open Binary64 in
/--
**How many pieces a line has, whatever the doubles.**

For every usable longest piece, every start and every target, a line has at least one piece and at
most as many as the limit, and as many pulls as pieces and one more, which a machine word holds.
It has two pieces or more exactly if it is cut up, and it is cut up exactly if it is no rapid move
and longer than the longest piece. Every longer distance takes two pieces at least, and the limit
if the quotient is larger; a line of undefined length is one piece.
-/
theorem count_of_line (circular : Circular) :
    letI : Scalar Float := scalar circular
    ∀ {s : Segmenter Float}, s.maxLength.isFinite = true → ofInt 0 < s.maxLength →
      ∀ (target : Position Float k) (joints : Joints Float k) (rapid : Bool),
        let distance := (target - s.geometry.position joints).planarNorm
        let line := s.start target joints rapid
        (1 ≤ line.iterations ∧ line.iterations ≤ UInt32.size - 1)
          ∧ (line.remaining = line.iterations + 1 ∧ line.remaining < UInt64.size)
          ∧ (2 ≤ line.iterations ↔ line.segmenting = true)
          ∧ (line.segmenting = true ↔ rapid = false ∧ s.maxLength < distance)
          ∧ (∀ long : Float, s.maxLength < long →
            ofInt 1 < long / s.maxLength ∧ 2 ≤ s.pieces long
              ∧ (ofInt Segmenter.maxPieces < long / s.maxLength →
                s.pieces long = Segmenter.maxPieces))
          ∧ (distance.isNaN = true → line.segmenting = false ∧ line.iterations = 1) := by
  let _ : Scalar Float := scalar circular
  intro s hfin hpos target joints rapid distance line
  have hs : Scalar.isPositive s.maxLength = true :=
    Bool.and_eq_true_iff.mpr ⟨hfin, decide_eq_true hpos⟩
  obtain ⟨a, hlength⟩ := exists_measures circular hs
  have hlong : ∀ long : Float, s.maxLength < long →
      ofInt 1 < long / s.maxLength ∧ 2 ≤ s.pieces long
        ∧ (ofInt Segmenter.maxPieces < long / s.maxLength →
          s.pieces long = Segmenter.maxPieces) := fun long h =>
    ⟨one_lt_div_of_lt hlength h, two_le_pieces circular hs h, ceilUpTo_of_lt (by decide)⟩
  have hcut : line.segmenting = true ↔ rapid = false ∧ s.maxLength < distance := by
    rw [Segmenter.start_segmenting_eq_true_iff]
    exact and_congr_right fun _ => decide_eq_true_iff
  have hwhole : line.segmenting = false → line.iterations = 1 :=
    Segmenter.start_iterations_of_not_segmenting
  -- whether there are pieces is asked of the distance, how many of the quotient
  have hcount : 1 ≤ line.iterations ∧ line.iterations ≤ UInt32.size - 1
      ∧ (2 ≤ line.iterations ↔ line.segmenting = true) := by
    cases hseg : line.segmenting with
    | false =>
      rw [hwhole hseg]
      exact ⟨le_rfl, by decide, by decide⟩
    | true =>
      have hpieces : line.iterations = s.pieces distance :=
        Segmenter.start_iterations_eq_pieces hseg
      have htwo : 2 ≤ line.iterations := hpieces ▸ (hlong distance (hcut.mp hseg).2).2.1
      exact ⟨one_le_two.trans htwo, hpieces ▸ ceilUpTo_le _ _, iff_of_true htwo rfl⟩
  obtain ⟨hone, hmax, htwo⟩ := hcount
  have hremaining : line.remaining = line.iterations + 1 := rfl
  refine ⟨⟨hone, hmax⟩, ⟨hremaining, ?_⟩, htwo, hcut, hlong, fun hnan => ?_⟩
  · rw [hremaining]
    exact (Nat.succ_le_succ hmax).trans_lt (by decide)
  · have hseg : line.segmenting = false := by
      rw [Bool.eq_false_iff, Ne, hcut]
      exact fun h => isNaN_iff.mp hnan (lt_iff.mp h.2).2.1
    exact ⟨hseg, hwhole hseg⟩

open Binary64 in
/-- A line of two millimetres has two pieces if the longest is the double before two. A line to an
undefined target has one. -/
theorem count_of_the_shortest_cut :
    letI : Scalar Float := scalar .level
    let s : Segmenter Float := { Segmenter.forArm levelArm 0 with
      maxLength := Float.ofBits 0x3FFFFFFFFFFFFFFF }
    let near : Position Float 0 := ⟨ofInt 952, ofInt 0, #v[]⟩
    let nowhere : Position Float 0 := ⟨ofInt 0 / ofInt 0, ofInt 0, #v[]⟩
    (s.maxLength.isFinite = true ∧ ofInt 0 < s.maxLength)
      ∧ (s.start near (.zero 0) false).segmenting = true
      ∧ (s.start near (.zero 0) false).iterations = 2
      ∧ (s.start nowhere (.zero 0) false).iterations = 1 := by
  let _ : Scalar Float := scalar .level
  intro s near nowhere
  have hfin : s.maxLength.isFinite = true := by decide +kernel
  have hpos : ofInt 0 < s.maxLength := by decide +kernel
  have hlong : s.maxLength < (near - s.geometry.position (.zero 0)).planarNorm := by decide +kernel
  have hnan : (nowhere - s.geometry.position (.zero 0)).planarNorm.isNaN = true := by decide +kernel
  obtain ⟨-, -, htwo, hcut, -⟩ := count_of_line .level hfin hpos near (.zero 0) false
  obtain ⟨-, -, -, -, -, hundefined⟩ := count_of_line .level hfin hpos nowhere (.zero 0) false
  have hseg := hcut.mpr ⟨rfl, hlong⟩
  have hle : (s.start near (.zero 0) false).iterations ≤ 2 := by decide +kernel
  exact ⟨⟨hfin, hpos⟩, hseg, le_antisymm hle (htwo.mpr hseg), (hundefined hnan).2⟩

end ScaraArm
