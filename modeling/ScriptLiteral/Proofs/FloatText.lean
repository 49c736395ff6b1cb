/-
  Script literals — the text of a double.

  A finite double is written as a plain number that is rounded to it and to no other
  double, with the fewest significant digits, and no digit but those.

  * `PlainNumber.RoundsTo` is rounding a plain number to nearest, ties to even, sign
    kept; each is rounded to one double (`roundsTo_iff`);
  * `Double.roundsTo_decimal`: the decimal of a double is rounded to that double;
  * `Double.significant_decimal_le`: no other that is has fewer significant digits;
  * `Double.text_inj`: the text tells the double, if that is a number;
  * `Double.text_ofBits` puts them together for the double of a 64-bit word.
-/
import ScriptLiteral.Literal.Emit
import ScriptLiteral.Proofs.ShortestDecimal

namespace ScriptLiteral

namespace PlainNumber

/-- Rounding to nearest: the sign is kept, and the magnitude is rounded to the rank. -/
def RoundsTo (n : PlainNumber) (d : Double) : Prop :=
  d.negative = n.negative ∧ Double.IsNearest n.magnitude d.rank

/-- The double that a plain number is rounded to. -/
def toDouble (n : PlainNumber) : Double :=
  Double.nearest n.negative (Nat.ofDigitChars 10 n.digits 0) (tenTo n.fraction.length)

theorem magnitude_nonneg (n : PlainNumber) : 0 ≤ n.magnitude := by
  unfold magnitude
  positivity

/-- **A plain number is rounded to one double.** -/
theorem roundsTo_iff {n : PlainNumber} {d : Double} : n.RoundsTo d ↔ d = n.toDouble := by
  have hnearest : Double.IsNearest n.magnitude n.toDouble.rank := by
    rw [magnitude_eq]
    exact Double.isNearest_nearest n.negative (tenTo_pos _)
  constructor
  · rintro ⟨hsign, hrank⟩
    obtain ⟨negative, rank, hlt⟩ := d
    have hr : rank = n.toDouble.rank := hrank.unique hnearest
    subst hr hsign
    rfl
  · rintro rfl
    exact ⟨rfl, hnearest⟩

end PlainNumber

namespace Double

/-! ## The decimal of a double -/

theorem magnitude_decimal {d : Double} (h : d.rank ≠ 0) :
    d.decimal.plain.magnitude = (shortest d.rank).1 * 10 ^ (shortest d.rank).2 := by
  have hden : (tenTo (-(shortest d.rank).2).toNat : ℚ) ≠ 0 := by exact_mod_cast (tenTo_pos _).ne'
  rw [Decimal.magnitude_plain, decimal, if_neg h, div_eq_iff hden, mul_assoc, zpow_ten_mul,
    Nat.cast_mul]

theorem negative_decimal (d : Double) : d.decimal.plain.negative = d.negative := by
  unfold decimal
  split <;> rfl

theorem rounds_decimal (d : Double) : Rounds d.rank d.decimal.plain.magnitude := by
  by_cases h : d.rank = 0
  · have hzero : d.decimal.plain.magnitude = numberAt 0 := by
      rw [Decimal.magnitude_plain, decimal, if_pos h, Nat.cast_zero, zero_div, numberAt_zero]
    rw [hzero, h]
    exact rounds_numberAt 0
  · rw [magnitude_decimal h]
    exact rounds_shortest (Nat.pos_of_ne_zero h)

/-- **The decimal of a double is rounded to it.** -/
theorem roundsTo_decimal {d : Double} (h : d.IsFinite) : d.decimal.plain.RoundsTo d :=
  ⟨d.negative_decimal.symm,
    (isNearest_iff d.decimal.plain.magnitude_nonneg h).2 d.rounds_decimal⟩

/-- **The decimal of a double has the fewest significant digits** of all that are
    rounded to it. -/
theorem significant_decimal_le {d : Double} (hfinite : d.IsFinite) (hne : d.rank ≠ 0)
    {n : PlainNumber} (hn : n.WellFormed) (h : n.RoundsTo d) :
    d.decimal.plain.significant ≤ n.significant := by
  have hrounds := (isNearest_iff n.magnitude_nonneg hfinite).1 h.2
  obtain ⟨c, s, hvalue, hc, -⟩ := PlainNumber.exists_significand hn
  rw [hvalue] at hrounds
  obtain ⟨c', s', hc', hshortest⟩ := exists_digits_shortest (Nat.pos_of_ne_zero hne) hc hrounds
  exact PlainNumber.significant_le d.decimal.wellFormed_plain
    ((magnitude_decimal hne).trans hshortest) hc'

/-! ## Text -/

theorem text_of_isFinite {d : Double} (h : d.IsFinite) : d.text = d.decimal.text := by
  rw [text, if_neg h.not_isNaN, if_pos h]

theorem text_of_not_isFinite {d : Double} (hnan : ¬ d.IsNaN) (h : ¬ d.IsFinite) :
    d.text = if d.negative then "-Infinity" else "Infinity" := by
  rw [text, if_neg hnan, if_neg h]

theorem read_text {d : Double} (hnan : ¬ d.IsNaN) :
    PlainNumber.read d.text.toList = if d.IsFinite then some (d.decimal.plain, []) else none := by
  by_cases h : d.IsFinite
  · rw [if_pos h, text_of_isFinite h, Decimal.read_text]
  · rw [if_neg h, text_of_not_isFinite hnan h]
    cases d.negative <;> decide

/-- **The text of a number tells its sign and its rank.** -/
theorem text_inj {d e : Double} (hd : ¬ d.IsNaN) (he : ¬ e.IsNaN) (h : d.text = e.text) :
    d = e := by
  have hread := read_text hd
  rw [h, read_text he] at hread
  by_cases hfinite : d.IsFinite
  · have hfinite' : e.IsFinite := by
      by_contra hnot
      rw [if_pos hfinite, if_neg hnot] at hread
      nomatch hread
    rw [if_pos hfinite, if_pos hfinite', Option.some_inj, Prod.mk.injEq] at hread
    have hrounds := PlainNumber.roundsTo_iff.1 (roundsTo_decimal hfinite)
    rw [← hread.1] at hrounds
    exact hrounds.trans (PlainNumber.roundsTo_iff.1 (roundsTo_decimal hfinite')).symm
  · have hfinite' : ¬ e.IsFinite := by
      intro hpos
      rw [if_neg hfinite, if_pos hpos] at hread
      nomatch hread
    rw [text_of_not_isFinite hd hfinite, text_of_not_isFinite he hfinite'] at h
    have hsign : d.negative = e.negative := by
      revert h
      cases d.negative <;> cases e.negative <;> decide
    have hrank : d.rank = e.rank :=
      (Nat.le_antisymm (Nat.le_of_not_lt hd) (Nat.le_of_not_lt hfinite)).trans
        (Nat.le_antisymm (Nat.le_of_not_lt he) (Nat.le_of_not_lt hfinite')).symm
    obtain ⟨negative, rank, hlt⟩ := d
    obtain ⟨negative', rank', hlt'⟩ := e
    obtain rfl : negative = negative' := hsign
    obtain rfl : rank = rank' := hrank
    rfl

theorem negative_ofBits (w : UInt64) : (ofBits w).negative = w.toNat.testBit 63 := by
  have hlt := w.toNat_lt
  have hdiv : w.toNat / 2 ^ 63 < 2 := by omega
  rw [Nat.testBit_eq_decide_div_mod_eq, Nat.mod_eq_of_lt hdiv]
  show decide _ = decide _
  rw [decide_eq_decide]
  omega

/-- **The text of a double is the shortest plain decimal that is rounded to it.**

    If the double is finite, its text is a reduced number, with the sign that the top
    bit of the word tells, a zero's included; that is rounded to the double and to no
    other; and no number that is rounded to it has fewer significant digits, unless the
    double is zero.  So two words that encode numbers have different texts. -/
theorem text_ofBits (w : UInt64) :
    (Value.float (ofBits w)).literal = .ok (ofBits w).text ∧
    ((ofBits w).IsFinite → ∃ n : PlainNumber, (ofBits w).text.toList = n.chars ∧
      PlainNumber.read (ofBits w).text.toList = some (n, []) ∧ n.Reduced ∧
      n.negative = w.toNat.testBit 63 ∧ (∀ d : Double, n.RoundsTo d ↔ d = ofBits w) ∧
      ((ofBits w).rank ≠ 0 → ∀ m : PlainNumber, m.WellFormed → m.RoundsTo (ofBits w) →
        n.significant ≤ m.significant)) ∧
    ∀ v : UInt64, ¬ (ofBits w).IsNaN → ¬ (ofBits v).IsNaN →
      (ofBits w).text = (ofBits v).text → w = v := by
  refine ⟨?_, fun h => ⟨(ofBits w).decimal.plain, ?_, ?_, Decimal.reduced_plain _, ?_, fun d => ?_,
    fun hne m hm hrounds => significant_decimal_le h hne hm hrounds⟩, fun v hw hv htext => ?_⟩
  · show Except.ok ("" ++ (ofBits w).text) = _
    rw [String.empty_append]
  · rw [text_of_isFinite h, Decimal.text, String.toList_ofList, Decimal.chars_plain]
  · rw [read_text h.not_isNaN, if_pos h]
  · rw [negative_decimal, negative_ofBits]
  · rw [PlainNumber.roundsTo_iff, ← PlainNumber.roundsTo_iff.1 (roundsTo_decimal h)]
  · rw [← toBits_ofBits w, ← toBits_ofBits v, text_inj hw hv htext]

/-- The sum of a tenth and two tenths is not the double of three tenths, and no number
    with fewer than seventeen digits is rounded to it. -/
theorem text_ofBits_sum :
    (ofBits 0x3FD3333333333334).IsFinite ∧
      (ofBits 0x3FD3333333333334).text = "0.30000000000000004" ∧
      ∀ m : PlainNumber, m.WellFormed → m.RoundsTo (ofBits 0x3FD3333333333334) →
        17 ≤ m.significant := by
  have hfinite : (ofBits 0x3FD3333333333334).IsFinite := by decide
  have htext : (ofBits 0x3FD3333333333334).text = "0.30000000000000004" := by decide +kernel
  obtain ⟨-, hshape, -⟩ := text_ofBits 0x3FD3333333333334
  obtain ⟨n, -, hread, -, -, -, hshortest⟩ := hshape hfinite
  have hn : n = ⟨false, ['0'], "30000000000000004".toList⟩ := by
    have hsome : PlainNumber.read "0.30000000000000004".toList =
        some (⟨false, ['0'], "30000000000000004".toList⟩, []) := by decide
    rw [htext, hsome] at hread
    exact congrArg Prod.fst (Option.some.inj hread).symm
  have hdigits : n.significant = 17 := by
    rw [hn]
    decide
  refine ⟨hfinite, htext, fun m hm hrounds => ?_⟩
  rw [← hdigits]
  exact hshortest (by decide) m hm hrounds

/-- A zero keeps its sign. -/
example : (ofBits 0x8000000000000000).text = "-0" := by decide

end Double

end ScriptLiteral
