/-
  Script literals — a single is a double of the same value.

  The numbers of a format are those whose significand fits: `m · 2 ^ j` with at most as
  many bits in `m` as the format has.  So every single is also a double, which rounding
  finds, and rounding it does not change it.

  * `Rank.quanta_eq_significand` and `Rank.exists_quanta_eq`: what the numbers of a
    format are;
  * `Single.SameNumber s d`: the double has the sign and the value of the single;
    there is at most one (`SameNumber.unique`);
  * `Single.sameNumber_toDouble`: the double that a single is turned into is the one.
-/
import Mathlib
import ScriptLiteral.Double.Basic
import ScriptLiteral.Proofs.Nearest

namespace ScriptLiteral

/-! ## The numbers of a format -/

namespace Rank

variable {w m : Nat}

theorem quanta_eq_significand (w r : Nat) :
    ∃ m j, m < twoTo (w + 1) ∧ quanta w r = m * twoTo j := by
  by_cases h : r < twoTo (w + 1)
  · exact ⟨r, 0, h, by rw [quanta_of_lt h, twoTo_zero, Nat.mul_one]⟩
  · rw [twoTo_succ] at h ⊢
    have hfraction := Nat.mod_lt r (twoTo_pos w)
    exact ⟨twoTo w + r % twoTo w, r / twoTo w - 1, by omega, quanta_of_le (by omega)⟩

/-- What has a significand that fits is a number of the format. -/
theorem exists_quanta_eq (hm : m < twoTo (w + 1)) (j : Nat) : ∃ r, quanta w r = m * twoTo j := by
  refine ⟨floor w (m * twoTo j), ?_⟩
  by_cases h : m * twoTo j < twoTo (w + 1)
  · rw [floor_of_lt h, quanta_of_lt h]
  · have hbits : m * twoTo j < twoTo (w + 1 + j) := by
      rw [twoTo_add]
      exact Nat.mul_lt_mul_of_pos_right hm (twoTo_pos j)
    have hpos := twoTo_pos (w + 1)
    have hlog : (m * twoTo j).log2 < w + 1 + j := (Nat.log2_lt (by omega)).2 hbits
    -- what is dropped are at most the zeros of the power of two
    have hdropped : twoTo ((m * twoTo j).log2 - w) ∣ m * twoTo j :=
      (Nat.pow_dvd_pow 2 (by omega)).trans (Nat.dvd_mul_left ..)
    rw [(quanta_floor_of_le (Nat.le_of_not_lt h)).1, Nat.div_mul_cancel hdropped]

theorem exists_quanta_eq_mul {v : Nat} (hvw : v ≤ w) (r j : Nat) :
    ∃ r', quanta w r' = quanta v r * twoTo j := by
  obtain ⟨m, i, hm, hquanta⟩ := quanta_eq_significand v r
  have hfits : m < twoTo (w + 1) := hm.trans_le (Nat.pow_le_pow_right Nat.two_pos (by omega))
  obtain ⟨r', hr'⟩ := exists_quanta_eq hfits (i + j)
  exact ⟨r', by rw [hr', hquanta, twoTo_add, Nat.mul_assoc]⟩

end Rank

/-! ## Singles as doubles -/

namespace Double

theorem rank_nearest_of_mul_eq {num den r : Nat} (negative : Bool) (hden : 0 < den)
    (hr : r < infinityRank) (h : num * unity = Rank.quanta 52 r * den) :
    (nearest negative num den).rank = r := by
  show min infinityRank (Rank.nearest 52 (num * unity) den) = r
  rw [h, Rank.nearest_quanta 52 r hden, Nat.min_eq_right hr.le]

theorem unity_eq_mul : unity = twoTo 925 * twoTo 149 := by
  rw [← twoTo_add, unity]
  unfold leastExponent
  rfl

theorem quanta_rank_singleInfinity :
    Rank.quanta 52 0x47F0000000000000 = Rank.quanta 23 Single.infinityRank * twoTo 925 := by
  decide +kernel

end Double

namespace Single

/-- The number at rank `r` of a single. -/
def numberAt (r : Nat) : ℚ := Rank.quanta 23 r / twoTo 149

/-- The double has the sign of the single and its exact value: the same number, or
    infinity if the single is infinite, or the quiet NaN if it is none. -/
structure SameNumber (s : Single) (d : Double) : Prop where
  negative : d.negative = s.negative
  finite : s.rank < infinityRank →
    d.IsFinite ∧ Double.numberAt d.rank = numberAt s.rank
  infinite : s.rank = infinityRank → d.rank = Double.infinityRank
  nan : infinityRank < s.rank → d.rank = Double.nan.rank

/-- **No two doubles have the value of one single.** -/
theorem SameNumber.unique {s : Single} {a b : Double} (ha : s.SameNumber a)
    (hb : s.SameNumber b) : a = b := by
  have hrank : a.rank = b.rank := by
    rcases Nat.lt_trichotomy s.rank infinityRank with h | h | h
    · have heq : Double.numberAt a.rank = Double.numberAt b.rank := by
        rw [(ha.finite h).2, (hb.finite h).2]
      rcases Nat.lt_trichotomy a.rank b.rank with hlt | hrank | hlt
      · exact absurd heq (Double.numberAt_lt_numberAt hlt).ne
      · exact hrank
      · exact absurd heq.symm (Double.numberAt_lt_numberAt hlt).ne
    · rw [ha.infinite h, hb.infinite h]
    · rw [ha.nan h, hb.nan h]
  have hnegative : a.negative = b.negative := by rw [ha.negative, hb.negative]
  cases a
  cases b
  cases hrank
  cases hnegative
  rfl

theorem nearest_quanta {r : Nat} (hr : r < infinityRank) (negative : Bool) :
    (Double.nearest negative (Rank.quanta 23 r) (twoTo 149)).IsFinite ∧
      Double.numberAt (Double.nearest negative (Rank.quanta 23 r) (twoTo 149)).rank =
        numberAt r := by
  obtain ⟨R, hR⟩ := Rank.exists_quanta_eq_mul (by decide : 23 ≤ 52) r 925
  have hexact : Rank.quanta 23 r * Double.unity = Rank.quanta 52 R * twoTo 149 := by
    rw [Double.unity_eq_mul, hR, Nat.mul_assoc]
  -- the order of ranks is that of numbers, so it is enough that infinity lies above
  have hbelow : R < 0x47F0000000000000 := by
    refine Nat.lt_of_not_le fun hle => ?_
    have hquanta := Rank.quanta_le_quanta (w := 52) hle
    rw [Double.quanta_rank_singleInfinity, hR] at hquanta
    exact Nat.not_le_of_lt (Rank.quanta_lt_quanta hr)
      (Nat.le_of_mul_le_mul_right hquanta (twoTo_pos 925))
  have hfinite : R < Double.infinityRank := hbelow.trans (by decide)
  have hrank := Double.rank_nearest_of_mul_eq negative (twoTo_pos 149) hfinite hexact
  refine ⟨hrank.trans_lt hfinite, ?_⟩
  have hscale : (twoTo 925 : ℚ) ≠ 0 := by exact_mod_cast (twoTo_pos 925).ne'
  rw [hrank, Double.numberAt, numberAt, hR, Double.unity_eq_mul, Nat.cast_mul, Nat.cast_mul,
    mul_comm (twoTo 925 : ℚ), mul_div_mul_right _ _ hscale]

/-- **A single is turned into the double of the same value.** -/
theorem sameNumber_toDouble (s : Single) : s.SameNumber s.toDouble := by
  rcases Nat.lt_trichotomy s.rank infinityRank with h | h | h
  · have hdouble : s.toDouble = Double.nearest s.negative (Rank.quanta 23 s.rank) (twoTo 149) :=
      if_pos h
    rw [hdouble]
    exact ⟨rfl, fun _ => nearest_quanta h s.negative, fun heq => absurd heq h.ne,
      fun hlt => absurd hlt h.asymm⟩
  · have hdouble : s.toDouble = Double.infinity s.negative := by
      rw [toDouble, if_neg h.not_lt, if_pos h]
    rw [hdouble]
    exact ⟨rfl, fun hlt => absurd h hlt.ne, fun _ => rfl, fun hlt => absurd h hlt.ne'⟩
  · have hdouble : s.toDouble = Double.nan.withSign s.negative := by
      rw [toDouble, if_neg h.asymm, if_neg h.ne']
    rw [hdouble]
    exact ⟨rfl, fun hlt => absurd h hlt.asymm, fun heq => absurd heq h.ne', fun _ => rfl⟩

end Single

end ScriptLiteral
