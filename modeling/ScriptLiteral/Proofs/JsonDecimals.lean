/-
  Script literals — decimals of a JSON text that come out unchanged.

  A decimal is read as a whole number divided by a power of ten.  As long as both are
  doubles themselves, the division is the only step that rounds, and it finds the double
  nearest to the decimal.  With no more than fifteen digits the decimal is the text of
  that double.

  * `Double.quanta_nearest_of_eq`: a whole number whose significand fits is a double;
  * `isNearest_lower`: dividing by a power of ten that is a double rounds once;
  * `PlainNumber.Ordinary` are the decimals in question, and `number_of_ordinary` their
    number;
  * `literalOfText_of_ordinary`: their literal is what has been read.
-/
import Mathlib
import ScriptLiteral.Proofs.FifteenDigits
import ScriptLiteral.Proofs.JsonIntegers
import ScriptLiteral.Proofs.Widening

namespace ScriptLiteral

/-! ## Exact doubles -/

namespace Double

theorem quanta_nearest_of_eq {negative : Bool} {num s j : Nat} (hnum : num = s * twoTo j)
    (hs : s < twoTo 53) (h : (nearest negative num 1).IsFinite) :
    (nearest negative num 1).quanta = num * unity := by
  obtain ⟨r, hr⟩ := Rank.exists_quanta_eq hs (j + leastExponent)
  have hexact : num * unity = Rank.quanta 52 r * 1 := by
    rw [hr, hnum, Nat.mul_one, twoTo_add, Nat.mul_assoc, unity]
  have hrank : (nearest negative num 1).rank = min infinityRank r := by
    show min infinityRank (Rank.nearest 52 (num * unity) 1) = _
    rw [hexact, Rank.nearest_quanta 52 r Nat.one_pos]
  have hlt : min infinityRank r < infinityRank := hrank ▸ h
  rw [quanta, hrank, min_eq_right (by omega), hexact, Nat.mul_one]

theorem isNearest_div {a b : Double} (hb : 0 < b.quanta) :
    IsNearest (a.quanta / b.quanta) (a.div b).rank :=
  isNearest_nearest _ hb

end Double

namespace Json

/-! ## Division by a power of ten -/

theorem quanta_powerOfTen {k : Nat} (hk : k ≤ 22) :
    (powerOfTen k).quanta = tenTo k * Double.unity := by
  have hpowers : tenTo k = 5 ^ k * twoTo k := by
    show 10 ^ k = 5 ^ k * 2 ^ k
    rw [← Nat.mul_pow]
  have hfits : 5 ^ k < twoTo 53 :=
    (Nat.pow_le_pow_right (by decide) hk).trans_lt (by decide : 5 ^ 22 < twoTo 53)
  have hbound : tenTo 22 * Double.unity ≤ Rank.quanta 52 0x7BC0000000000000 * 1 := by
    decide +kernel
  exact Double.quanta_nearest_of_eq hpowers hfits (Double.isFinite_nearest Nat.one_pos (by decide)
    ((Nat.mul_le_mul_right _ (tenTo_le_tenTo hk)).trans hbound))

/-- **Dividing by a power of ten that is a double rounds once**: the quotient is the double
    nearest to the decimal. -/
theorem isNearest_lower {m k : Nat} (hm : m < twoTo 53) (hk : k ≤ 22) :
    Double.IsNearest (m / tenTo k) (lower (Double.nearest false m 1) k).rank := by
  have hword : (Double.nearest false m 1).quanta = m * Double.unity :=
    Double.quanta_nearest_of_eq (j := 0) (Nat.mul_one m).symm hm
      (Double.isFinite_nearest_word false (hm.trans (by decide)))
  have hsteps : (k - 1) / greatestPower = 0 := Nat.div_eq_of_lt (by unfold greatestPower; omega)
  have hdivision : lower (Double.nearest false m 1) k =
      (Double.nearest false m 1).div (powerOfTen k) := by
    unfold lower
    simp only [hsteps, Nat.zero_mul, Nat.sub_zero]
    rfl
  have hpos : 0 < (powerOfTen k).quanta := by
    rw [quanta_powerOfTen hk]
    exact Nat.mul_pos (tenTo_pos k) Double.unity_pos
  have hnearest := Double.isNearest_div (a := Double.nearest false m 1) hpos
  rw [hword, quanta_powerOfTen hk, Nat.cast_mul, Nat.cast_mul,
    mul_div_mul_right _ _ Double.cast_unity_pos.ne'] at hnearest
  rwa [hdivision]

end Json

/-! ## Ordinary decimals -/

namespace PlainNumber

/-- A decimal with a point and no superfluous digit, of which at most fifteen are
    significant, and at most 22 stand behind the point. -/
structure Ordinary (n : PlainNumber) : Prop extends n.Reduced where
  fraction_ne : n.fraction ≠ []
  significant_le : n.significant ≤ 15
  places_le : n.fraction.length ≤ 22

variable {n : PlainNumber}

theorem Ordinary.mod_ten (h : n.Ordinary) : Nat.ofDigitChars 10 n.digits 0 % 10 ≠ 0 :=
  h.toReduced.minimal.resolve_left fun hnone => h.fraction_ne (List.length_eq_zero_iff.1 hnone)

theorem Ordinary.ofDigitChars_lt (h : n.Ordinary) : Nat.ofDigitChars 10 n.digits 0 < tenTo 15 := by
  obtain ⟨z, hz⟩ := exists_ofDigitChars_rdropWhile (n.digits.dropWhile isZero)
  rw [ofDigitChars_dropWhile] at hz
  have hlast := h.mod_ten
  cases z with
  | zero =>
    rw [hz, tenTo_zero, Nat.mul_one]
    exact (ScriptLiteral.ofDigitChars_lt (isDigit_of_mem_significantDigits
      h.toReduced.wellFormed.isDigit_digits)).trans_le (tenTo_le_tenTo h.significant_le)
  | succ z =>
    rw [hz, tenTo_succ, ← Nat.mul_assoc, Nat.mul_mod_left] at hlast
    exact absurd rfl hlast

theorem Ordinary.le_rank_toDouble (h : n.Ordinary) : twoTo 52 ≤ n.toDouble.rank := by
  have hpos : 1 ≤ Nat.ofDigitChars 10 n.digits 0 := by
    have := h.mod_ten
    omega
  have hleast : Rank.quanta 52 (twoTo 52) * tenTo 22 ≤ 1 * Double.unity := by decide +kernel
  exact Double.le_rank_nearest (tenTo_pos _) (by decide)
    ((Nat.mul_le_mul_left _ (tenTo_le_tenTo h.places_le)).trans
      (hleast.trans (Nat.mul_le_mul_right _ hpos)))

end PlainNumber

namespace Json

variable {n : PlainNumber}

theorem number_of_le (hfraction : n.fraction ≠ [])
    (hm : Nat.ofDigitChars 10 n.digits 0 ≤ significandBound) : (Numeral.ofPlain n).number =
      scaledNumber n.negative (Nat.ofDigitChars 10 n.digits 0) (-n.fraction.length) := by
  have hdigits : Nat.ofDigitChars 10 n.digits 0 =
      Nat.ofDigitChars 10 n.fraction (Nat.ofDigitChars 10 n.whole 0) := Nat.ofDigitChars_append ..
  rw [hdigits] at hm ⊢
  have hplaces := absorb_eq_of_le hm
  have hwhole : absorb significandBound 0 n.whole = (Nat.ofDigitChars 10 n.whole 0, []) :=
    absorb_eq_of_le ((le_ofDigitChars n.fraction _).trans hm)
  have hinteger : ¬ (Numeral.ofPlain n).IsInteger := fun hi => hfraction hi.1
  unfold Numeral.number
  simp only [hinteger, false_and, if_false]
  simp [Numeral.ofPlain, hwhole, hplaces]

/-- **An ordinary decimal is read as the double nearest to it.** -/
theorem number_of_ordinary (h : n.Ordinary) :
    (Numeral.ofPlain n).number = .ok (.float n.toDouble) := by
  have hm := h.ofDigitChars_lt
  have hnumber := number_of_le h.fraction_ne (hm.le.trans (by decide))
  have hplaces : 0 < n.fraction.length := List.length_pos_iff.2 h.fraction_ne
  have hscale : scale (Nat.ofDigitChars 10 n.digits 0) (-n.fraction.length) =
      some (lower (Double.nearest false (Nat.ofDigitChars 10 n.digits 0) 1) n.fraction.length) := by
    unfold scale
    rw [if_pos (by omega), neg_neg, Int.toNat_natCast]
  have hrounds := isNearest_lower (hm.trans (by decide)) h.places_le
  rw [← n.magnitude_eq] at hrounds
  generalize lower (Double.nearest false (Nat.ofDigitChars 10 n.digits 0) 1) n.fraction.length = d
    at hscale hrounds
  have hdouble : d.withSign n.negative = n.toDouble := PlainNumber.roundsTo_iff.1 ⟨rfl, hrounds⟩
  rw [hnumber, scaledNumber, hscale]
  simp only [hdouble]

/-- **An ordinary decimal comes out unchanged.**

    A decimal with a point and no superfluous digit, of which at most fifteen are
    significant and at most 22 stand behind the point, is read as the double nearest to
    it, and the shortest text of that double is the decimal. -/
theorem literalOfText_of_ordinary (h : n.Ordinary) {text : String}
    (htext : text.toList ∈ padded {n.chars}) :
    (parse text).map toValue = .ok (.float n.toDouble) ∧
      literalOfText text = .ok (String.ofList n.chars) := by
  have hgrammatical : (Numeral.ofPlain n).Grammatical := ⟨h.whole, h.fraction_digits, nofun⟩
  have hnumber := number_of_ordinary h
  have hfinite : n.toDouble.IsFinite := Document.isFinite_of_value_eq
    (d := .number ⟨.ofPlain n, hgrammatical, _, hnumber⟩) rfl
  rw [← numeralTexts_ofPlain] at htext
  have hvalue : (parse text).map toValue = .ok (.float n.toDouble) := by
    rw [parse_numeral hgrammatical htext hnumber]
    rfl
  refine ⟨hvalue, ?_⟩
  rw [literalOfText_of_value hvalue, Value.literal_float, PlainNumber.text_toDouble h.toReduced
    h.significant_le h.le_rank_toDouble hfinite, Except.mapError]

/-- A decimal with as many digits, and as many places, as may be. -/
def manyPlaces : PlainNumber := ⟨true, ['0'], "0000000987654321098765".toList⟩

theorem literalOfText_of_ordinary_manyPlaces :
    manyPlaces.Ordinary ∧ manyPlaces.significant = 15 ∧ manyPlaces.fraction.length = 22 ∧
      literalOfText "-0.0000000987654321098765" = .ok "-0.0000000987654321098765" := by
  have hordinary : manyPlaces.Ordinary :=
    { whole := by decide
      fraction_digits := List.all_eq_true.1 (by decide)
      fraction_last := by decide
      fraction_ne := by decide
      significant_le := by decide
      places_le := by decide }
  have hchars : manyPlaces.chars = "-0.0000000987654321098765".toList := by decide
  have htext : "-0.0000000987654321098765".toList ∈ padded {manyPlaces.chars} :=
    mem_padded_of_mem hchars.symm
  have hliteral := (literalOfText_of_ordinary hordinary htext).2
  rw [hchars, String.ofList_toList] at hliteral
  exact ⟨hordinary, by decide, by decide, hliteral⟩

end Json

end ScriptLiteral
