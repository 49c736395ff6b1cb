/-
  Script literals — the integers of a JSON text, of any length.

  The digits of an integer go into a word as long as it holds them.  If it holds them
  all, the value is exact or the closest double.  Otherwise the word is scaled by a power
  of ten, and the result is never less than what the word could hold.

  * `absorb_spec` says which digits have been taken, and why no more;
  * `parse_numeral` and `parse_numeral_error`: a text of a numeral is judged as the
    numeral;
  * `le_rank_scale`: scaling a full word does not fall below the words;
  * `IntegerToken.literalOfText_chars`: the value of every integer token, whatever its
    length.
-/
import Mathlib
import ScriptLiteral.Proofs.Closest
import ScriptLiteral.Proofs.JsonNumbers
import ScriptLiteral.Proofs.TokenLookahead
import ScriptLiteral.Proofs.WideIntegers

namespace ScriptLiteral

/-! ## Literals of numbers -/

theorem Value.literal_integer (i : Int64) : (Value.integer i).literal = .ok i.toInt.repr := by
  show Except.ok ("" ++ (Decimal.ofInt i.toInt).text) = _
  rw [String.empty_append, Decimal.text_ofInt]

theorem Value.literal_float (d : Double) : (Value.float d).literal = .ok d.text := by
  show Except.ok ("" ++ d.text) = _
  rw [String.empty_append]

namespace Json

/-! ## Digits -/

/-- **The digits that are taken make up the number, and the first that is left would
    exceed the bound.** -/
theorem absorb_spec (bound n : Nat) (cs : List Char) :
    ∃ taken, cs = taken ++ (absorb bound n cs).2 ∧
      (absorb bound n cs).1 = Nat.ofDigitChars 10 taken n ∧
      ∀ d rest, (absorb bound n cs).2 = d :: rest →
        bound < 10 * (absorb bound n cs).1 + digitValue d := by
  induction cs generalizing n with
  | nil => exact ⟨[], rfl, rfl, nofun⟩
  | cons c cs ih =>
    unfold absorb
    split
    · obtain ⟨taken, hcs, hnumber, hleft⟩ := ih (10 * n + digitValue c)
      refine ⟨c :: taken, ?_, ?_, hleft⟩
      · rw [List.cons_append, ← hcs]
      · rw [Nat.ofDigitChars_cons]
        exact hnumber
    · next hexceeds =>
      refine ⟨[], rfl, rfl, ?_⟩
      rintro _ _ ⟨⟩
      exact Nat.lt_of_not_le hexceeds

/-! ## Texts of a numeral -/

/-- The numeral of a plain number: it has no exponent. -/
def Numeral.ofPlain (n : PlainNumber) : Numeral := ⟨n.negative, n.whole, n.fraction, none⟩

theorem numeralTexts_ofPlain (n : PlainNumber) : numeralTexts (.ofPlain n) = {n.chars} := by
  unfold numeralTexts exponentTexts Numeral.ofPlain
  rw [mul_one]

variable {n : Numeral} {text : String}

theorem parse_numeral (hn : n.Grammatical) (htext : text.toList ∈ padded (numeralTexts n))
    {k : Number} (hk : n.number = .ok k) : parse text = .ok (.number k) :=
  parse_texts (d := .number ⟨n, hn, k, hk⟩) (Nat.zero_le _) htext

theorem parse_numeral_error (hn : n.Grammatical)
    (htext : text.toList ∈ padded (numeralTexts n)) {unread : List Char}
    (hk : n.number = .error unread) :
    ∃ e, parse text = .error e ∧ e.cause = .numberOutOfRange := by
  obtain ⟨ws, hws, cs, hcs, ws', hws', e⟩ := mem_padded.1 htext
  have hends : EndsNumber ws' := by
    simpa only [List.append_nil] using endsNumber_blanks hws' endsNumber_nil
  obtain ⟨c, tail, hc, rfl, hread⟩ := read_numeralTexts hn hcs hends
  have hnumber : readNumber n.negative (c :: tail ++ ws') =
      .error (.before .numberOutOfRange (unread ++ ws')) := by
    rw [readNumber, hread]
    simp only [hk]
  have htoken : ∀ nested, readToken nested
      (skipBlanks (PlainNumber.signChars n.negative ++ c :: tail ++ ws')) =
        .error (.before .numberOutOfRange (unread ++ ws')) := by
    intro nested
    cases hneg : n.negative with
    | true =>
      rw [hneg] at hnumber
      show mapResult Json.number (readNumber true (c :: tail ++ ws')) = _
      rw [hnumber]
      rfl
    | false =>
      rw [hneg] at hnumber
      show readToken nested (skipBlanks (c :: tail ++ ws')) = _
      rw [(startsValue_of_isDigit hc tail).skipBlanks_eq, List.cons_append,
        readToken_of_isDigit nested hc, ← List.cons_append, hnumber]
      rfl
  have hvalue : (readValue greatestDepth).run text.toList =
      .error (.before .numberOutOfRange (unread ++ ws')) := by
    show readToken (some (readValue 126)) (skipBlanks text.toList) = _
    rw [e, skipBlanks_append hws, htoken]
  have hrejected : readText text.toList =
      .error (.before .numberOutOfRange (unread ++ ws')) := by
    rw [readText, hvalue]
  rw [parse, hrejected]
  exact ⟨_, rfl, rfl⟩

theorem literalOfText_of_value {v : Value} (h : (parse text).map toValue = .ok v) :
    literalOfText text = v.literal.mapError .fault := by
  unfold literalOfText
  cases hparse : parse text with
  | ok j =>
    rw [hparse] at h
    rw [← Except.ok.inj h]
  | error e =>
    rw [hparse] at h
    cases h

/-! ## Words that are full -/

theorem scale_natCast (s k : Nat) : scale s k =
    if k ≤ greatestPower then
      if ((Double.nearest false s 1).mul (powerOfTen k)).IsFinite then
        some ((Double.nearest false s 1).mul (powerOfTen k))
      else none
    else if (Double.nearest false s 1).rank = 0 then some (Double.nearest false s 1) else none := by
  have hnonneg : ¬ (k : Int) < 0 := Int.not_lt.2 (Int.natCast_nonneg k)
  unfold scale
  dsimp only
  rw [if_neg hnonneg, Int.toNat_natCast]

/-- **Scaling a full word does not fall below the words.** -/
theorem le_rank_scale {s k : Nat} {d : Double} (hs : 0x1999999999999999 ≤ s) (hk : 0 < k)
    (h : scale s k = some d) : 0x43F0000000000000 ≤ d.rank := by
  have hword : 0x43B999999999999A ≤ (Double.nearest false s 1).rank := by
    have hleast : (Double.nearest false 0x1999999999999999 1).rank = 0x43B999999999999A := by
      decide +kernel
    rw [← hleast]
    exact min_le_min_left _ (Rank.nearest_le_nearest (Nat.mul_le_mul_right _ hs))
  have hpower : 0x4024000000000000 ≤ (powerOfTen k).rank := by
    have hten : Rank.quanta 52 0x4024000000000000 * 1 ≤ tenTo 1 * Double.unity := by
      decide +kernel
    exact Double.le_rank_nearest Nat.one_pos (by decide)
      (hten.trans (Nat.mul_le_mul_right _ (tenTo_le_tenTo hk)))
  -- both factors may be rounded down, but not so far that the product is too small
  have hproduct := Double.le_rank_mul (r := 0x43F0000000000000) hword hpower (by decide)
    (by decide +kernel)
  rw [scale_natCast] at h
  split at h
  · split at h
    · obtain rfl := Option.some.inj h
      exact hproduct
    · cases h
  · split at h
    · next hzero => omega
    · cases h

theorem lt_of_scale_eq_none {s k : Nat} (hs : s ≤ significandBound) (h : scale s k = none) :
    288 < k := by
  by_contra hle
  have hk : k ≤ 288 := Nat.le_of_not_lt hle
  have hword : (Double.nearest false s 1).rank ≤ 0x43F0000000000000 := by
    refine Double.rank_nearest_le Nat.one_pos ?_
    rw [Double.quanta_rank_twoWords, Nat.mul_one]
    exact Nat.mul_le_mul_right _ (hs.trans (by decide))
  have hpower : (powerOfTen k).rank ≤ 0x7BC0000000000000 := by
    have hgreatest : tenTo 288 * Double.unity ≤ Rank.quanta 52 0x7BC0000000000000 * 1 := by
      decide +kernel
    exact Double.rank_nearest_le Nat.one_pos
      ((Nat.mul_le_mul_right _ (tenTo_le_tenTo hk)).trans hgreatest)
  have hproduct := Double.isFinite_mul (r := 0x7FE0000000000000) hword hpower (by decide)
    (by decide +kernel)
  have hfinite : k ≤ greatestPower := hk.trans (by decide)
  rw [scale_natCast, if_pos hfinite, if_pos hproduct] at h
  cases h

/-! ## Integer tokens -/

/-- A token without point and exponent: a sign and digits, no zero in front of another
    digit. -/
structure IntegerToken where
  negative : Bool
  digits : List Char
  canonical : CanonicalDigits digits

namespace IntegerToken

/-- The number that the digits denote. -/
def magnitude (t : IntegerToken) : Nat := Nat.ofDigitChars 10 t.digits 0

/-- The integer that the token denotes. -/
def value (t : IntegerToken) : ℤ := if t.negative then -t.magnitude else t.magnitude

/-- The characters of the token. -/
def chars (t : IntegerToken) : List Char := PlainNumber.signChars t.negative ++ t.digits

/-- The token as a numeral. -/
def numeral (t : IntegerToken) : Numeral := .ofPlain ⟨t.negative, t.digits, []⟩

/-- The token is `-0`. -/
def IsNegativeZero (t : IntegerToken) : Prop := t.negative = true ∧ t.digits = ['0']

variable (t : IntegerToken)

theorem natAbs_value : t.value.natAbs = t.magnitude := by
  unfold value
  split
  · rw [Int.natAbs_neg, Int.natAbs_natCast]
  · exact Int.natAbs_natCast _

theorem toDigits_magnitude : Nat.toDigits 10 t.magnitude = t.digits :=
  toDigits_ofDigitChars t.canonical

theorem isNegativeZero_iff : t.IsNegativeZero ↔ t.negative = true ∧ t.magnitude = 0 := by
  refine and_congr_right fun _ => ⟨fun h => ?_, fun h => ?_⟩
  · rw [magnitude, h]
    rfl
  · rw [← t.toDigits_magnitude, h]
    rfl

/-- A token other than `-0` is the decimal text of its integer. -/
theorem ofList_chars (h : ¬ t.IsNegativeZero) : String.ofList t.chars = t.value.repr := by
  have hsign : (t.value < 0) ↔ t.negative = true := by
    rw [t.isNegativeZero_iff] at h
    unfold value
    cases hneg : t.negative with
    | true =>
      have hne : t.magnitude ≠ 0 := fun hzero => h ⟨hneg, hzero⟩
      simp only [if_true, iff_true]
      omega
    | false =>
      simp only [Bool.false_eq_true, if_false, iff_false]
      omega
  rw [← Decimal.text_ofInt, Decimal.text, Decimal.chars_ofInt, natAbs_value, toDigits_magnitude,
    chars, PlainNumber.signChars]
  simp only [hsign]

theorem grammatical : t.numeral.Grammatical where
  whole := t.canonical
  fraction := nofun
  exponent := nofun

theorem numeralTexts_numeral : numeralTexts t.numeral = {t.chars} := by
  rw [numeral, numeralTexts_ofPlain, PlainNumber.chars, if_pos rfl, List.append_nil, chars]

/-! ## Reading -/

theorem number_of_le (h : t.magnitude ≤ significandBound) :
    t.numeral.number = .ok (integerNumber t.negative t.magnitude) := by
  have hall : absorb significandBound 0 t.digits = (t.magnitude, []) := absorb_eq_of_le h
  have hinteger : t.numeral.IsInteger := ⟨rfl, rfl⟩
  unfold Numeral.number
  simp only [hinteger, true_and]
  simp only [numeral, Numeral.ofPlain, hall, if_true]

theorem number_of_lt (h : significandBound < t.magnitude) :
    ∃ s k, 0x1999999999999999 ≤ s ∧ s ≤ significandBound ∧ 0 < k ∧ s * tenTo k ≤ t.magnitude ∧
      t.numeral.number = scaledNumber t.negative s k := by
  have hword := absorb_le (Nat.zero_le significandBound) t.digits
  obtain ⟨taken, hdigits, hnumber, hfull⟩ := absorb_spec significandBound 0 t.digits
  have hscaled : t.numeral.number =
      if (absorb significandBound 0 t.digits).2 = [] then
        .ok (integerNumber t.negative (absorb significandBound 0 t.digits).1)
      else scaledNumber t.negative (absorb significandBound 0 t.digits).1
        (absorb significandBound 0 t.digits).2.length := by
    have hinteger : t.numeral.IsInteger := ⟨rfl, rfl⟩
    unfold Numeral.number
    simp only [hinteger, true_and]
    simp only [numeral, Numeral.ofPlain, absorb, List.length_nil, Nat.sub_self, Nat.cast_zero,
      sub_zero]
  generalize absorb significandBound 0 t.digits = r at hword hdigits hnumber hfull hscaled
  obtain ⟨s, left⟩ := r
  dsimp only at hword hdigits hnumber hfull hscaled
  have hmagnitude : t.magnitude = tenTo left.length * s + Nat.ofDigitChars 10 left 0 := by
    rw [magnitude, hdigits, Nat.ofDigitChars_append, ← hnumber,
      Nat.ofDigitChars_eq_ofDigitChars_zero]
    rfl
  cases left with
  | nil =>
    -- all digits taken would have fitted
    rw [List.length_nil, tenTo_zero, Nat.one_mul, Nat.ofDigitChars_nil] at hmagnitude
    omega
  | cons d left =>
    have hdigit : digitValue d < 10 :=
      digitValue_lt (t.canonical.2.1 d (hdigits ▸ List.mem_append_right _ (List.mem_cons_self ..)))
    -- the word is full, and each digit that is left is a factor of ten
    have hexceeds := hfull d left rfl
    refine ⟨s, (d :: left).length, ?_, hword, Nat.succ_pos _, ?_, ?_⟩
    · unfold significandBound at hexceeds
      omega
    · rw [hmagnitude, Nat.mul_comm]
      exact Nat.le_add_right ..
    · rw [hscaled, if_neg (List.cons_ne_nil d left)]

variable {t} {text : String}

theorem map_toValue_of_le (htext : text.toList ∈ padded {t.chars})
    (h : t.magnitude ≤ significandBound) (hzero : ¬ t.IsNegativeZero) :
    (parse text).map toValue = .ok (.ofInt t.value) := by
  rw [← numeralTexts_numeral] at htext
  have hpos : t.negative = true → 0 < t.magnitude := fun hneg =>
    Nat.pos_of_ne_zero fun hm => hzero (t.isNegativeZero_iff.2 ⟨hneg, hm⟩)
  rw [parse_numeral t.grammatical htext (t.number_of_le h), Except.map, toValue,
    toValue_integerNumber h hpos, value]

theorem map_toValue_of_isNegativeZero (htext : text.toList ∈ padded {t.chars})
    (h : t.IsNegativeZero) : (parse text).map toValue = .ok (.float (.zero true)) := by
  rw [← numeralTexts_numeral] at htext
  obtain ⟨hneg, hzero⟩ := t.isNegativeZero_iff.1 h
  have hnumber := t.number_of_le (hzero ▸ Nat.zero_le _)
  have hdouble : integerNumber true 0 = .float (.zero true) := by decide +kernel
  rw [hneg, hzero, hdouble] at hnumber
  rw [parse_numeral t.grammatical htext hnumber]
  rfl

theorem map_toValue_of_lt (htext : text.toList ∈ padded {t.chars})
    (h : significandBound < t.magnitude) :
    (∃ d : Double, (parse text).map toValue = .ok (.float d) ∧ d.IsFinite ∧
      d.negative = t.negative ∧ 0x10000000000000000 ≤ |d.value|) ∨
    ∃ e, parse text = .error e ∧ e.cause = .numberOutOfRange ∧ tenTo 306 ≤ t.magnitude := by
  rw [← numeralTexts_numeral] at htext
  obtain ⟨s, k, hfull, hword, hk, hle, hnumber⟩ := t.number_of_lt h
  cases hscale : scale s k with
  | some d =>
    have hd : d.IsFinite := isFinite_scale (Nat.lt_succ_of_le hword) hscale
    have hrank := Double.numberAt_le_numberAt (le_rank_scale hfull hk hscale)
    have hbound : Double.numberAt 0x43F0000000000000 = 0x10000000000000000 := by
      rw [Double.numberAt, Double.quanta_rank_twoWords, Nat.cast_mul,
        mul_div_cancel_right₀ _ Double.cast_unity_pos.ne']
      norm_num
    simp only [scaledNumber, hscale] at hnumber
    refine .inl ⟨d.withSign t.negative, ?_, hd.withSign t.negative, rfl, ?_⟩
    · rw [parse_numeral t.grammatical htext hnumber]
      rfl
    · rw [Double.abs_value, ← hbound]
      exact hrank
  | none =>
    simp only [scaledNumber, hscale] at hnumber
    obtain ⟨e, he, hcause⟩ := parse_numeral_error t.grammatical htext hnumber
    refine .inr ⟨e, he, hcause, hle.trans' ?_⟩
    have hpower : tenTo 288 ≤ tenTo k := tenTo_le_tenTo (lt_of_scale_eq_none hword hscale).le
    calc tenTo 306 = tenTo 18 * tenTo 288 := by decide +kernel
      _ ≤ s * tenTo k := Nat.mul_le_mul (hfull.trans' (by decide)) hpower

/-- **What becomes of an integer token, however long it is.**

    If 64 signed bits hold the integer, the value is that integer, and the literal is
    the token itself; only `-0` is a double, the negative zero.  Any other integer of up
    to 64 bits and a sign becomes the closest double, ties to even.  A greater one becomes
    a finite double of the same sign that is no less than those 64 bits can say, or is
    rejected as out of range, and that only if it has more than 306 digits. -/
theorem literalOfText_chars (t : IntegerToken) {text : String}
    (htext : text.toList ∈ padded {t.chars}) :
    (-0x8000000000000000 ≤ t.value ∧ t.value < 0x8000000000000000 → ¬ t.IsNegativeZero →
      (∃ i : Int64, (parse text).map toValue = .ok (.integer i) ∧ i.toInt = t.value) ∧
        literalOfText text = .ok (String.ofList t.chars) ∧ String.ofList t.chars = t.value.repr) ∧
    (t.IsNegativeZero → (parse text).map toValue = .ok (.float (.zero true)) ∧
      literalOfText text = .ok "-0") ∧
    (¬ (-0x8000000000000000 ≤ t.value ∧ t.value < 0x8000000000000000) →
      t.value.natAbs < 0x10000000000000000 →
      ∃ d : Double, (parse text).map toValue = .ok (.float d) ∧ d.IsClosest t.value) ∧
    (0x10000000000000000 ≤ t.value.natAbs →
      (∃ d : Double, (parse text).map toValue = .ok (.float d) ∧ d.IsFinite ∧
        d.negative = t.negative ∧ 0x10000000000000000 ≤ |d.value|) ∨
      ∃ e, literalOfText text = .error (.json e) ∧ e.cause = .numberOutOfRange ∧
        tenTo 306 ≤ t.value.natAbs) := by
  refine ⟨fun hword hzero => ?_, fun hzero => ?_, fun hwide hbits => ?_, fun hbeyond => ?_⟩
  · have hfits : t.magnitude ≤ significandBound := by
      rw [← t.natAbs_value]
      unfold significandBound
      omega
    have hvalue := map_toValue_of_le htext hfits hzero
    have hint := Int64.toInt_ofInt_of_le hword.1 hword.2
    rw [Value.ofInt_of_mem hword] at hvalue
    refine ⟨⟨_, hvalue, hint⟩, ?_, t.ofList_chars hzero⟩
    rw [literalOfText_of_value hvalue, Value.literal_integer, hint, t.ofList_chars hzero,
      Except.mapError]
  · have hvalue := map_toValue_of_isNegativeZero htext hzero
    refine ⟨hvalue, ?_⟩
    rw [literalOfText_of_value hvalue]
    rfl
  · have hfits : t.magnitude ≤ significandBound := by
      rw [← t.natAbs_value]
      exact Nat.le_of_lt_succ hbits
    have hzero : ¬ t.IsNegativeZero := by
      intro hzero
      have := t.natAbs_value
      rw [(t.isNegativeZero_iff.1 hzero).2] at this
      omega
    have hvalue := map_toValue_of_le htext hfits hzero
    rw [Value.ofInt_of_notMem hwide] at hvalue
    exact ⟨_, hvalue, Double.isClosest_ofInt (Double.isFinite_nearest_word _ hbits)⟩
  · rw [t.natAbs_value] at hbeyond ⊢
    rcases map_toValue_of_lt htext hbeyond with hfloat | ⟨e, he, hcause, hdigits⟩
    · exact .inl hfloat
    · refine .inr ⟨e, ?_, hcause, hdigits⟩
      rw [literalOfText, he]

/-- The least signed word. -/
def leastWord : IntegerToken := ⟨true, "9223372036854775808".toList, by decide⟩

/-- The negative zero. -/
def negativeZero : IntegerToken := ⟨true, ['0'], by decide⟩

/-- The greatest unsigned word. -/
def greatestWord : IntegerToken := ⟨false, "18446744073709551615".toList, by decide⟩

/-- The integer after it, one digit of which no longer fits. -/
def twoWords : IntegerToken := ⟨false, "18446744073709551616".toList, by decide⟩

theorem literalOfText_chars_ends :
    (∃ i : Int64, (parse "-9223372036854775808").map toValue = .ok (.integer i) ∧
        i.toInt = -0x8000000000000000) ∧
      literalOfText "-9223372036854775808" = .ok "-9223372036854775808" ∧
      literalOfText "-0" = .ok "-0" ∧
      (∃ d : Double, (parse "18446744073709551615").map toValue = .ok (.float d) ∧
        d.IsClosest 0xFFFFFFFFFFFFFFFF) ∧
      ∃ d : Double, (parse "18446744073709551616").map toValue = .ok (.float d) ∧ d.IsFinite ∧
        0x10000000000000000 ≤ |d.value| := by
  have htexts : ∀ (t : IntegerToken) (text : String), text.toList = t.chars →
      text.toList ∈ padded {t.chars} := fun t text h => mem_padded_of_mem h
  have hleast : leastWord.value = -0x8000000000000000 := by decide
  have hgreatest : greatestWord.value = 0xFFFFFFFFFFFFFFFF := by decide
  have hbeyond : twoWords.value = 0x10000000000000000 := by decide
  obtain ⟨hword, -, -, -⟩ := literalOfText_chars leastWord
    (htexts leastWord "-9223372036854775808" (by decide))
  obtain ⟨-, hzero, -, -⟩ := literalOfText_chars negativeZero (htexts negativeZero "-0" (by decide))
  obtain ⟨-, -, hwide, -⟩ := literalOfText_chars greatestWord
    (htexts greatestWord "18446744073709551615" (by decide))
  obtain ⟨-, -, -, hlong⟩ := literalOfText_chars twoWords
    (htexts twoWords "18446744073709551616" (by decide))
  rw [hleast] at hword
  rw [hgreatest] at hwide
  rw [hbeyond] at hlong
  obtain ⟨hvalue, hliteral, -⟩ := hword (by decide) (by unfold IsNegativeZero; decide)
  refine ⟨hvalue, hliteral, (hzero ⟨rfl, rfl⟩).2, ?_, ?_⟩
  · exact_mod_cast hwide (by decide) (by decide)
  · rcases hlong (by decide) with ⟨d, hd, hfinite, -, hsize⟩ | ⟨_, _, _, hdigits⟩
    · exact ⟨d, hd, hfinite, hsize⟩
    · exact absurd hdigits (by decide +kernel)

end IntegerToken

end Json

end ScriptLiteral
