/-
  Script literals — fifteen digits are kept by a double.

  The numbers that are rounded to a double lie closer together than the decimals with
  fifteen digits do.  So the double of such a decimal determines it, and the shortest
  text of the double, which has no more digits, is the decimal itself.

  * `Double.gap_le`: how far a number is from its neighbours;
  * `Double.Rounds.eq_of_fifteen_digits`: of the decimals with fifteen digits at most one
    is rounded to a double;
  * `PlainNumber.text_toDouble`: the text of the double of such a decimal is the decimal.
-/
import Mathlib
import ScriptLiteral.Proofs.FloatText

namespace ScriptLiteral

namespace Double

/-! ## Gaps -/

/-- From the first full significand on, the gap to the next number is a fraction of the
    number that is bounded above. -/
theorem gap_le {r : Nat} (hr : twoTo 52 ≤ r) :
    2 ^ 52 * (numberAt (r + 1) - numberAt r) ≤ numberAt r := by
  have hgap : (Rank.quanta 52 (r + 1) : ℚ) = Rank.quanta 52 r + twoTo (r / twoTo 52 - 1) := by
    exact_mod_cast Rank.quanta_succ 52 r
  have hlarge : twoTo 52 * twoTo (r / twoTo 52 - 1) ≤ Rank.quanta 52 r := by
    rw [Rank.quanta_of_le hr]
    exact Nat.mul_le_mul_right _ (Nat.le_add_right ..)
  have hlarge' : (2 ^ 52 * twoTo (r / twoTo 52 - 1) : ℚ) ≤ Rank.quanta 52 r := by
    have hpow : (twoTo 52 : ℚ) = 2 ^ 52 := Nat.cast_pow 2 52
    rw [← hpow]
    exact_mod_cast hlarge
  unfold numberAt
  rw [← sub_div, ← mul_div_assoc, div_le_div_iff_of_pos_right cast_unity_pos]
  linarith

theorem Rounds.sub_le {r : Nat} {a b : ℚ} (hr : twoTo 52 ≤ r) (ha : Rounds r a)
    (hb : Rounds r b) : 2 ^ 51 * (b - a) ≤ a := by
  have hpos : 0 < r := (twoTo_pos 52).trans_le hr
  have habove := gap_le hr
  have hbelow := (gap_spec hpos).2
  have hlow := ha.le.1
  have hhigh := hb.le.2
  have hnumber := numberAt_pos hpos
  norm_num at habove ⊢
  linarith

/-! ## Decimals with fifteen digits -/

/-- **At most one decimal with fifteen digits is rounded to a rank.** -/
theorem Rounds.eq_of_fifteen_digits {r c c' : Nat} {s s' : ℤ} (hr : twoTo 52 ≤ r)
    (hc : c < tenTo 15) (hc' : c' < tenTo 15) (h : Rounds r (c * 10 ^ s))
    (h' : Rounds r (c' * 10 ^ s')) : (c * 10 ^ s : ℚ) = c' * 10 ^ s' := by
  wlog hlt : (c * 10 ^ s : ℚ) < c' * 10 ^ s' generalizing c c' s s'
  · rcases lt_or_eq_of_le (not_lt.1 hlt) with hgt | heq
    · exact (this hc' hc h' h hgt).symm
    · exact heq.symm
  have hpos : (0 : ℚ) < c * 10 ^ s := by
    have hnumber := numberAt_pos ((twoTo_pos 52).trans_le hr)
    have hprev := numberAt_nonneg (r - 1)
    have hlow := h.le.1
    linarith
  obtain ⟨k, hk, hnext⟩ := exists_mem_Ico_zpow hpos (by norm_num : (1 : ℚ) < 10)
  have hk' : (10 : ℚ) ^ (k + 1 - 1) ≤ c * 10 ^ s := by rwa [add_sub_cancel_right]
  -- both are on the grid that has fifteen digits for the lesser, and a step of that is
  -- more than the difference of two numbers that are rounded to the rank
  obtain ⟨u, hu⟩ := exists_on_grid hc hk'
  obtain ⟨v, hv⟩ := exists_on_grid hc' (hk'.trans hlt.le)
  have hten : (tenTo 15 : ℚ) * 10 ^ (k + 1 - (15 : Nat)) = 10 ^ (k + 1) := tenTo_mul_zpow (by omega)
  have hstep : (0 : ℚ) < 10 ^ (k + 1 - (15 : Nat)) := by positivity
  have hdifference := h.sub_le hr h'
  rw [hu, hv] at hlt hdifference
  rw [hu, ← hten] at hnext
  generalize (10 : ℚ) ^ (k + 1 - (15 : Nat)) = step at *
  have huv : (u + 1 : ℚ) ≤ v := by
    have hless : (u : ℚ) < v := lt_of_mul_lt_mul_right hlt hstep.le
    exact_mod_cast hless
  have hwide : step ≤ v * step - u * step := by
    have hmul := mul_le_mul_of_nonneg_right huv hstep.le
    linarith
  rw [cast_tenTo] at hnext
  norm_num at hnext hdifference
  linarith

end Double

namespace PlainNumber

/-! ## The text of the double of a decimal -/

theorem rounds_toDouble {n : PlainNumber} (h : n.toDouble.IsFinite) :
    Double.Rounds n.toDouble.rank n.magnitude :=
  (Double.isNearest_iff n.magnitude_nonneg h).1 (roundsTo_iff.2 rfl).2

/-- **A decimal with fifteen digits is the text of its double**, if no digit of it is
    superfluous and the double has a full significand. -/
theorem text_toDouble {n : PlainNumber} (hn : n.Reduced) (hdigits : n.significant ≤ 15)
    (hfull : twoTo 52 ≤ n.toDouble.rank) (hfinite : n.toDouble.IsFinite) :
    n.toDouble.text = String.ofList n.chars := by
  have hpos : 0 < n.toDouble.rank := (twoTo_pos 52).trans_le hfull
  have hrounds := rounds_toDouble hfinite
  obtain ⟨c, s, hvalue, hc, -⟩ := exists_significand hn.wellFormed
  have hc' : c < tenTo 15 := hc.trans_le (tenTo_le_tenTo hdigits)
  rw [hvalue] at hrounds
  -- the text has no more digits, so both are decimals with fifteen
  obtain ⟨d, t, hd, hshortest⟩ := Double.exists_digits_shortest hpos hc' hrounds
  have hprinted := (Double.magnitude_decimal hpos.ne').trans hshortest
  have hrounds' := n.toDouble.rounds_decimal
  rw [hprinted] at hrounds'
  have hmagnitude := hrounds'.eq_of_fifteen_digits hfull hd hc' hrounds
  rw [← hprinted, ← hvalue] at hmagnitude
  have hplain : n.toDouble.decimal.plain = n :=
    Decimal.eq_of_magnitude_eq n.toDouble.decimal.reduced_plain hn n.toDouble.negative_decimal
      hmagnitude
  rw [Double.text_of_isFinite hfinite, Decimal.text, ← Decimal.chars_plain, hplain]

end PlainNumber

end ScriptLiteral
