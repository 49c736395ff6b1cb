/-
  Script literals — the double closest to a number of either sign.

  Rounding keeps the sign of a number and rounds its magnitude.  So what it finds is the
  closest of all doubles, whatever their signs, and it keeps the order of numbers.

  * `Rank.nearest_le_nearest`: a greater quotient is not rounded to a lower rank;
  * `Double.value` is the number that a double stands for;
  * `Double.IsClosest x d` says that no finite double is nearer to `x` than `d`, and
    that `d` is even if another is equally near;
  * `Double.isClosest_ofInt` and `Double.value_ofInt_le_value_ofInt`: the double that an
    integer is rounded to is the closest, and rounding integers keeps their order.
-/
import Mathlib
import ScriptLiteral.Proofs.Nearest

namespace ScriptLiteral

/-! ## Order of ranks -/

namespace Rank

variable {w num num' den : Nat}

theorem floor_le_floor {m n : Nat} (h : m ≤ n) : floor w m ≤ floor w n :=
  le_floor_iff.2 (Nat.le_trans (quanta_floor_le w m) h)

/-- **Rounding to nearest keeps the order.** -/
theorem nearest_le_nearest (h : num ≤ num') : nearest w num den ≤ nearest w num' den := by
  have hfloor : floor w (num / den) ≤ floor w (num' / den) :=
    floor_le_floor (Nat.div_le_div_right h)
  rcases Nat.lt_or_eq_of_le hfloor with hlt | heq
  · -- each stays next to its own floor
    have hlow := nearest_eq_floor_or w num den
    have hhigh := nearest_eq_floor_or w num' den
    omega
  · -- both choose from the same neighbours, by the same midpoint
    have hlow := nearest_cases w num den
    have hhigh := nearest_cases w num' den
    dsimp only at hlow hhigh
    rw [heq] at hlow
    generalize floor w (num' / den) = r at hlow hhigh
    omega

end Rank

namespace Double

/-! ## Numbers with their signs -/

/-- The number that a double stands for: its magnitude with its sign. -/
def value (d : Double) : ℚ := if d.negative then -numberAt d.rank else numberAt d.rank

theorem abs_value (d : Double) : |d.value| = numberAt d.rank := by
  unfold value
  split
  · rw [abs_neg, abs_of_nonneg (numberAt_nonneg _)]
  · exact abs_of_nonneg (numberAt_nonneg _)

/-- The double is finite, no finite double is nearer to `x`, and if one of another value
    is equally near, then `d` is even. -/
structure IsClosest (x : ℚ) (d : Double) : Prop where
  finite : d.IsFinite
  closest : ∀ e : Double, e.IsFinite → |x - d.value| ≤ |x - e.value|
  even_of_tie : ∀ e : Double, e.IsFinite → e.value ≠ d.value →
    |x - e.value| = |x - d.value| → d.rank % 2 = 0

theorem abs_sub_value (d : Double) (q : ℚ) :
    |(if d.negative then -q else q) - d.value| = |q - numberAt d.rank| := by
  unfold value
  split
  · rw [neg_sub_neg, abs_sub_comm]
  · rfl

/-- **What is nearest in magnitude is closest of all**, if it has the sign of the
    number. -/
theorem IsNearest.isClosest {d : Double} {q : ℚ} (hq : 0 ≤ q) (hd : d.IsFinite)
    (h : IsNearest q d.rank) : IsClosest (if d.negative then -q else q) d := by
  have habs : |if d.negative then -q else q| = q := by
    split
    · rw [abs_neg, abs_of_nonneg hq]
    · exact abs_of_nonneg hq
  have hother : ∀ e : Double,
      |q - numberAt e.rank| ≤ |(if d.negative then -q else q) - e.value| := by
    intro e
    have hmagnitudes := abs_abs_sub_abs_le (if d.negative then -q else q) e.value
    rwa [habs, abs_value] at hmagnitudes
  refine ⟨hd, fun e he => ?_, fun e he hne heq => ?_⟩
  · rw [abs_sub_value]
    exact (h.closest e.rank he.le).trans (hother e)
  · rw [abs_sub_value] at heq
    by_cases hrank : e.rank = d.rank
    · -- the same magnitude with the other sign is farther, unless both are zero
      have hfar : |(if d.negative then -q else q) - e.value| = q + numberAt d.rank := by
        have hsum : 0 ≤ q + numberAt d.rank := add_nonneg hq (numberAt_nonneg _)
        have hsign : e.negative ≠ d.negative := by
          intro hsign
          rw [value, value, hrank, hsign] at hne
          exact hne rfl
        unfold value
        rw [hrank]
        cases hdn : d.negative with
        | false =>
          have hen : e.negative = true := by simpa [hdn] using hsign
          simp only [hen, Bool.false_eq_true, if_false, if_true]
          rw [sub_neg_eq_add, abs_of_nonneg hsum]
        | true =>
          have hen : e.negative = false := by simpa [hdn] using hsign
          simp only [hen, Bool.false_eq_true, if_false, if_true]
          rw [← neg_add', abs_neg, abs_of_nonneg hsum]
      have hzero := h.closest 0 (Nat.zero_le _)
      rw [numberAt_zero, sub_zero, abs_of_nonneg hq] at hzero
      have hrankzero : d.rank = 0 := by
        by_contra hpos
        have := numberAt_pos (Nat.pos_of_ne_zero hpos)
        linarith
      rw [hrankzero]
    · refine h.even_of_tie e.rank he.le hrank (le_antisymm ?_ (h.closest e.rank he.le))
      exact heq ▸ hother e

/-! ## Rounding integers -/

theorem value_ofInt (i : ℤ) :
    (ofInt i).value = if i < 0 then -numberAt (ofInt i).rank else numberAt (ofInt i).rank := by
  unfold value
  simp only [ofInt, nearest, decide_eq_true_eq]

/-- **The double of an integer is the closest to it.** -/
theorem isClosest_ofInt {i : ℤ} (h : (ofInt i).IsFinite) : IsClosest i (ofInt i) := by
  have hnearest : IsNearest (i.natAbs / (1 : Nat)) (ofInt i).rank :=
    isNearest_nearest _ Nat.one_pos
  rw [Nat.cast_one, div_one] at hnearest
  have hclosest := hnearest.isClosest (Nat.cast_nonneg _) h
  have hsign : (if (ofInt i).negative then -(i.natAbs : ℚ) else i.natAbs) = i := by
    simp only [ofInt, nearest, decide_eq_true_eq, Nat.cast_natAbs]
    split
    · next hneg => rw [abs_of_neg hneg, Int.cast_neg, neg_neg]
    · next hneg => rw [abs_of_nonneg (not_lt.1 hneg)]
  rwa [hsign] at hclosest

theorem rank_ofInt_le_rank_ofInt {i j : ℤ} (h : i.natAbs ≤ j.natAbs) :
    (ofInt i).rank ≤ (ofInt j).rank :=
  min_le_min_left infinityRank (Rank.nearest_le_nearest (Nat.mul_le_mul_right unity h))

/-- **Rounding integers keeps their order.** -/
theorem value_ofInt_le_value_ofInt {i j : ℤ} (h : i ≤ j) : (ofInt i).value ≤ (ofInt j).value := by
  have hi := numberAt_nonneg (ofInt i).rank
  have hj := numberAt_nonneg (ofInt j).rank
  rw [value_ofInt, value_ofInt]
  rcases lt_or_ge i 0 with hneg | hnonneg
  · rw [if_pos hneg]
    split
    · exact neg_le_neg (numberAt_le_numberAt (rank_ofInt_le_rank_ofInt (by omega)))
    · linarith
  · rw [if_neg (not_lt.2 hnonneg), if_neg (not_lt.2 (hnonneg.trans h))]
    exact numberAt_le_numberAt (rank_ofInt_le_rank_ofInt (by omega))

end Double

end ScriptLiteral
