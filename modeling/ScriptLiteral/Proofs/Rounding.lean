/-
  Script literals — rounding keeps the order.

  Rounding a quotient never passes a number of the format: what is at most a number
  is rounded to that number or below, and what is at least a number to that number
  or above.  So a product or quotient is finite if a finite double bounds it.

  * `Rank.le_floor_iff` is the order of rounding down;
  * `Rank.le_nearest` and `Rank.nearest_le` are the order of rounding to nearest;
  * `Double.isFinite_nearest` bounds a rounded quotient, `Double.isFinite_mul` a product,
    and `Double.IsFinite.div` a quotient whose divisor is one or more.
-/
import ScriptLiteral.Double.Basic

namespace ScriptLiteral

/-! ## Ranks -/

namespace Rank

theorem le_floor_iff {w n r : Nat} : r ≤ floor w n ↔ quanta w r ≤ n := by
  constructor
  · intro h
    exact Nat.le_trans (quanta_le_quanta h) (quanta_floor_le w n)
  · intro h
    refine Nat.le_of_not_lt fun hlt => ?_
    have hnext : quanta w (floor w n + 1) ≤ quanta w r := quanta_le_quanta hlt
    have hfloor := lt_quanta_floor_succ w n
    omega

theorem floor_quanta (w r : Nat) : floor w (quanta w r) = r := by
  refine Nat.le_antisymm (Nat.le_of_not_lt fun hlt => ?_) (le_floor_iff.2 (Nat.le_refl _))
  have hfloor := quanta_floor_le w (quanta w r)
  have hgreater := quanta_lt_quanta (w := w) hlt
  omega

variable {w num den r : Nat}

theorem le_nearest (hden : 0 < den) (h : quanta w r * den ≤ num) : r ≤ nearest w num den := by
  have hfloor : r ≤ floor w (num / den) := le_floor_iff.2 ((Nat.le_div_iff_mul_le hden).2 h)
  rcases nearest_eq_floor_or w num den with e | e
  · rwa [e]
  · rw [e]
    exact Nat.le_succ_of_le hfloor

theorem nearest_quanta (w r : Nat) (hden : 0 < den) : nearest w (quanta w r * den) den = r := by
  have hlt : 2 * (quanta w r * den) < (quanta w r + quanta w (r + 1)) * den := by
    have hnext := Nat.mul_lt_mul_of_pos_right (quanta_lt_succ w r) hden
    rw [Nat.add_mul]
    omega
  unfold nearest
  simp only [Nat.mul_div_cancel _ hden, floor_quanta, if_pos hlt]

theorem nearest_le (hden : 0 < den) (h : num ≤ quanta w r * den) : nearest w num den ≤ r := by
  by_cases hr : r ≤ floor w (num / den)
  · -- the quotient is the number itself
    have hle : quanta w r * den ≤ num := (Nat.le_div_iff_mul_le hden).1 (le_floor_iff.1 hr)
    refine Nat.le_of_eq ?_
    rw [Nat.le_antisymm h hle, nearest_quanta w r hden]
  · rcases nearest_eq_floor_or w num den with e | e <;> omega

end Rank

/-! ## Finite doubles -/

namespace Double

theorem quanta_rank_one : Rank.quanta 52 0x3FF0000000000000 = unity := by decide +kernel

theorem quanta_rank_twoWords : Rank.quanta 52 0x43F0000000000000 = 0x10000000000000000 * unity := by
  decide +kernel

section
variable {negative : Bool} {num den r : Nat}

theorem le_rank_nearest (hden : 0 < den) (hr : r ≤ infinityRank)
    (h : Rank.quanta 52 r * den ≤ num * unity) : r ≤ (nearest negative num den).rank :=
  Nat.le_min.2 ⟨hr, Rank.le_nearest hden h⟩

theorem rank_nearest_le (hden : 0 < den) (h : num * unity ≤ Rank.quanta 52 r * den) :
    (nearest negative num den).rank ≤ r :=
  Nat.le_trans (Nat.min_le_right ..) (Rank.nearest_le hden h)

theorem isFinite_nearest (hden : 0 < den) (hr : r < infinityRank)
    (h : num * unity ≤ Rank.quanta 52 r * den) : (nearest negative num den).IsFinite :=
  Nat.lt_of_le_of_lt (rank_nearest_le hden h) hr

theorem unity_le_quanta_nearest (hden : 0 < den) (h : den ≤ num) :
    unity ≤ (nearest negative num den).quanta := by
  have hone : Rank.quanta 52 0x3FF0000000000000 * den ≤ num * unity := by
    rw [quanta_rank_one, Nat.mul_comm]
    exact Nat.mul_le_mul_right unity h
  rw [← quanta_rank_one]
  exact Rank.quanta_le_quanta (le_rank_nearest hden (by decide) hone)

end

theorem isFinite_nearest_word (negative : Bool) {n : Nat} (h : n < UInt64.size) :
    (nearest negative n 1).IsFinite := by
  have hsize : UInt64.size = 0x10000000000000000 := rfl
  refine isFinite_nearest Nat.one_pos (r := 0x43F0000000000000) (by decide) ?_
  rw [quanta_rank_twoWords, Nat.mul_one]
  exact Nat.mul_le_mul_right unity (by omega)

section
variable {a b : Double} {r s t : Nat}

theorem le_rank_mul (ha : s ≤ a.rank) (hb : t ≤ b.rank) (hr : r ≤ infinityRank)
    (h : Rank.quanta 52 r * unity ≤ Rank.quanta 52 s * Rank.quanta 52 t) :
    r ≤ (a.mul b).rank := by
  refine le_rank_nearest (Nat.mul_pos unity_pos unity_pos) hr ?_
  rw [← Nat.mul_assoc]
  exact Nat.mul_le_mul_right unity
    (Nat.le_trans h (Nat.mul_le_mul (Rank.quanta_le_quanta ha) (Rank.quanta_le_quanta hb)))

theorem isFinite_mul (ha : a.rank ≤ s) (hb : b.rank ≤ t) (hr : r < infinityRank)
    (h : Rank.quanta 52 s * Rank.quanta 52 t ≤ Rank.quanta 52 r * unity) :
    (a.mul b).IsFinite := by
  refine isFinite_nearest (Nat.mul_pos unity_pos unity_pos) hr ?_
  rw [← Nat.mul_assoc]
  exact Nat.mul_le_mul_right unity
    (Nat.le_trans (Nat.mul_le_mul (Rank.quanta_le_quanta ha) (Rank.quanta_le_quanta hb)) h)

end

theorem IsFinite.div {a b : Double} (ha : a.IsFinite) (hb : unity ≤ b.quanta) :
    (a.div b).IsFinite :=
  isFinite_nearest (Nat.lt_of_lt_of_le unity_pos hb) ha (Nat.mul_le_mul_left a.quanta hb)

theorem IsFinite.not_isNaN {d : Double} (h : d.IsFinite) : ¬ d.IsNaN :=
  Nat.not_lt.2 (Nat.le_of_lt h)

theorem isFinite_zero (negative : Bool) : (zero negative).IsFinite := by
  show 0 < infinityRank
  decide

theorem IsFinite.withSign {d : Double} (h : d.IsFinite) (negative : Bool) :
    (d.withSign negative).IsFinite := h

end Double

end ScriptLiteral
