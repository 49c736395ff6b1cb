/-
  Script literals — digits that count.

  A plain number is reduced if no digit of it is superfluous: no zero in front of
  another whole digit and none at the end of the fraction.  Its significant digits
  are those that remain when the zeros in front and at the end are not counted.

  * `Decimal.reduced_plain`: the text of every decimal is a reduced number, and
    `Decimal.chars_eq` is the text by whole part and remainder;
  * `Decimal.eq_of_magnitude_eq`: a number is written as a reduced one in one way only;
  * `PlainNumber.exists_significand`: a plain number is a whole number with as many
    digits as are significant, times a power of ten;
  * `PlainNumber.significant_le`: no number is written with fewer digits than are
    significant.
-/
import Mathlib
import ScriptLiteral.Proofs.PlainNumber

namespace ScriptLiteral

/-! ## Powers of ten -/

theorem cast_tenTo (n : Nat) : (tenTo n : ℚ) = 10 ^ n := Nat.cast_pow 10 n

theorem tenTo_lt_tenTo_iff {m n : Nat} : tenTo m < tenTo n ↔ m < n :=
  Nat.pow_lt_pow_iff_right (by decide)

theorem tenTo_le_tenTo {m n : Nat} (h : m ≤ n) : tenTo m ≤ tenTo n :=
  Nat.pow_le_pow_right (by decide) h

theorem tenTo_mul_zpow {n : Nat} {s t : ℤ} (h : n + s = t) : (tenTo n : ℚ) * 10 ^ s = 10 ^ t := by
  rw [cast_tenTo, ← h, zpow_add₀ (by norm_num), zpow_natCast]

/-- Of two ways of writing a number as a whole number times a power of ten, the one
    with the lower power has the zeros in the whole number. -/
theorem eq_mul_tenTo {m c : Nat} {u s : ℤ} (h : (m : ℚ) * 10 ^ u = c * 10 ^ s) (hle : s ≤ u) :
    c = m * tenTo (u - s).toNat := by
  have hs : (10 : ℚ) ^ s ≠ 0 := by positivity
  have hz : (tenTo (u - s).toNat : ℚ) * 10 ^ s = 10 ^ u := tenTo_mul_zpow (by omega)
  have hc : (c : ℚ) = m * tenTo (u - s).toNat := by
    refine mul_right_cancel₀ hs ?_
    rw [← h, mul_assoc, hz]
  exact_mod_cast hc

theorem le_of_mod_ten_ne_zero {m c : Nat} {u s : ℤ} (h : (m : ℚ) * 10 ^ u = c * 10 ^ s)
    (hm : m % 10 ≠ 0) : s ≤ u := by
  by_contra hlt
  obtain ⟨z, hz⟩ : ∃ z, (s - u).toNat = z + 1 := ⟨(s - u).toNat - 1, by omega⟩
  rw [eq_mul_tenTo h.symm (by omega), hz, tenTo_succ, ← Nat.mul_assoc, Nat.mul_mod_left] at hm
  exact hm rfl

/-! ## Lists of digits -/

theorem ofDigitChars_lt {ds : List Char} (h : ∀ c ∈ ds, c.isDigit = true) :
    Nat.ofDigitChars 10 ds 0 < tenTo ds.length := by
  induction ds using List.reverseRecOn with
  | nil => exact Nat.one_pos
  | append_singleton ds d ih =>
    have hds := ih fun c hc => h c (List.mem_append_left _ hc)
    have hd := digitValue_lt (h d (List.mem_append_right _ (List.mem_singleton_self d)))
    rw [ofDigitChars_concat, List.length_append, List.length_singleton, tenTo_succ]
    omega

theorem tenTo_le_ofDigitChars {c : Char} {cs : List Char} (h : c.isDigit = true) (hc : c ≠ '0') :
    tenTo cs.length ≤ Nat.ofDigitChars 10 (c :: cs) 0 := by
  have hpos : 1 ≤ 10 * 0 + (c.toNat - '0'.toNat) := by
    have hd := isDigit_iff.1 h
    have hne : c.toNat ≠ 48 := fun e => hc (Char.toNat_inj.1 e)
    simp only [Char.reduceToNat]
    omega
  rw [Nat.ofDigitChars_cons, Nat.ofDigitChars_eq_ofDigitChars_zero]
  exact Nat.le_add_right_of_le (Nat.le_mul_of_pos_right _ hpos)

theorem lastDigits_ofDigitChars {ds : List Char} (h : ∀ c ∈ ds, c.isDigit = true) (n : Nat) :
    Decimal.lastDigits ds.length (Nat.ofDigitChars 10 ds n) = ds := by
  induction ds using List.reverseRecOn with
  | nil => rfl
  | append_singleton ds d ih =>
    have hds := ih fun c hc => h c (List.mem_append_left _ hc)
    have hdigit := h d (List.mem_append_right _ (List.mem_singleton_self d))
    have hlt := digitValue_lt hdigit
    have hnumber : Nat.ofDigitChars 10 (ds ++ [d]) n =
        10 * Nat.ofDigitChars 10 ds n + digitValue d := by
      rw [Nat.ofDigitChars_append, Nat.ofDigitChars_cons, Nat.ofDigitChars_nil]
      rfl
    have hdiv : (10 * Nat.ofDigitChars 10 ds n + digitValue d) / 10 = Nat.ofDigitChars 10 ds n := by
      omega
    have hmod : (10 * Nat.ofDigitChars 10 ds n + digitValue d) % 10 = digitValue d := by omega
    rw [List.length_append, List.length_singleton, Decimal.lastDigits, hnumber, hdiv, hmod, hds,
      digitChar_digitValue hdigit]

/-- Whether a digit is zero. -/
def isZero (c : Char) : Bool := c == '0'

theorem isZero_iff {c : Char} : isZero c = true ↔ c = '0' := beq_iff_eq

/-- The digits without the zeros in front and at the end. -/
def significantDigits (ds : List Char) : List Char := (ds.dropWhile isZero).rdropWhile isZero

theorem ofDigitChars_dropWhile (ds : List Char) :
    Nat.ofDigitChars 10 (ds.dropWhile isZero) 0 = Nat.ofDigitChars 10 ds 0 := by
  induction ds with
  | nil => rfl
  | cons d ds ih =>
    by_cases h : isZero d = true
    · rw [List.dropWhile_cons_of_pos h, ih, isZero_iff.1 h]
      rfl
    · rw [List.dropWhile_cons_of_neg h]

theorem exists_ofDigitChars_rdropWhile (ds : List Char) :
    ∃ z, Nat.ofDigitChars 10 ds 0 = Nat.ofDigitChars 10 (ds.rdropWhile isZero) 0 * tenTo z := by
  induction ds using List.reverseRecOn with
  | nil => exact ⟨0, rfl⟩
  | append_singleton ds d ih =>
    by_cases h : isZero d = true
    · obtain ⟨z, hz⟩ := ih
      refine ⟨z + 1, ?_⟩
      rw [List.rdropWhile_concat_pos _ _ _ h, ofDigitChars_concat, hz, isZero_iff.1 h, tenTo_succ,
        Nat.mul_comm 10, Nat.mul_assoc]
      rfl
    · exact ⟨0, by rw [List.rdropWhile_concat_neg _ _ _ h, tenTo_zero, Nat.mul_one]⟩

theorem ne_zero_of_significantDigits {ds cs : List Char} {c : Char}
    (h : significantDigits ds = c :: cs) : c ≠ '0' := by
  obtain ⟨es, hes⟩ := List.rdropWhile_prefix isZero (ds.dropWhile isZero)
  rw [show (ds.dropWhile isZero).rdropWhile isZero = c :: cs from h] at hes
  have hhead : (ds.dropWhile isZero).head? = some c := by rw [← hes]; rfl
  have hnot := List.head?_dropWhile_not isZero ds
  rw [hhead] at hnot
  rintro rfl
  exact absurd hnot (by decide)

theorem isDigit_of_mem_significantDigits {ds : List Char} (hd : ∀ c ∈ ds, c.isDigit = true) :
    ∀ c ∈ significantDigits ds, c.isDigit = true := fun c hc =>
  hd c ((List.dropWhile_suffix _).mem ((List.rdropWhile_prefix isZero _).mem hc))

theorem mod_ten_of_significantDigits {ds : List Char} (hd : ∀ c ∈ ds, c.isDigit = true)
    (h : significantDigits ds ≠ []) : Nat.ofDigitChars 10 (significantDigits ds) 0 % 10 ≠ 0 := by
  have hlast : isZero ((significantDigits ds).getLast h) = false :=
    Bool.eq_false_iff.2 (List.rdropWhile_last_not isZero _ h)
  have hdigit : ((significantDigits ds).getLast h).isDigit = true :=
    isDigit_of_mem_significantDigits hd _ (List.getLast_mem h)
  rw [← List.dropLast_concat_getLast h, ofDigitChars_concat]
  generalize (significantDigits ds).getLast h = d at hlast hdigit
  have hne : d.toNat ≠ 48 := fun e => absurd (isZero_iff.2 (Char.toNat_inj.1 e)) (by simp [hlast])
  have hlt := digitValue_lt hdigit
  have hd' := isDigit_iff.1 hdigit
  have hpos : digitValue d ≠ 0 := by
    simp only [digitValue, Char.reduceToNat]
    omega
  omega

/-! ## Plain numbers -/

namespace PlainNumber

/-- No digit is superfluous: no zero in front of another whole digit, and none at
    the end of the fraction. -/
structure Reduced (n : PlainNumber) : Prop where
  whole : CanonicalDigits n.whole
  fraction_digits : ∀ c ∈ n.fraction, c.isDigit = true
  fraction_last : n.fraction.getLast? ≠ some '0'

/-- The digits on both sides of the point. -/
def digits (n : PlainNumber) : List Char := n.whole ++ n.fraction

/-- How many digits are significant. -/
def significant (n : PlainNumber) : Nat := (significantDigits n.digits).length

theorem WellFormed.isDigit_digits {n : PlainNumber} (h : n.WellFormed) :
    ∀ c ∈ n.digits, c.isDigit = true := by
  intro c hc
  rcases List.mem_append.1 hc with hc | hc
  · exact h.whole_digits c hc
  · exact h.fraction_digits c hc

theorem Reduced.wellFormed {n : PlainNumber} (h : n.Reduced) : n.WellFormed :=
  ⟨h.whole.1, h.whole.2.1, h.fraction_digits⟩

/-- The digits in front of the point count for as much as there are places. -/
theorem ofDigitChars_digits (n : PlainNumber) : Nat.ofDigitChars 10 n.digits 0 =
    tenTo n.fraction.length * Nat.ofDigitChars 10 n.whole 0 +
      Nat.ofDigitChars 10 n.fraction 0 := by
  rw [digits, Nat.ofDigitChars_append, Nat.ofDigitChars_eq_ofDigitChars_zero]
  rfl

theorem magnitude_eq (n : PlainNumber) :
    n.magnitude = Nat.ofDigitChars 10 n.digits 0 / tenTo n.fraction.length := by
  have hten : (tenTo n.fraction.length : ℚ) ≠ 0 := by exact_mod_cast (tenTo_pos _).ne'
  rw [ofDigitChars_digits, magnitude, Nat.cast_add, Nat.cast_mul, add_div,
    mul_div_cancel_left₀ _ hten]

/-- **A plain number is as long as its significant digits**, but for a power of ten:
    they are a whole number, and neither its first nor its last digit is zero. -/
theorem exists_significand {n : PlainNumber} (h : n.WellFormed) :
    ∃ (m : Nat) (u : ℤ), n.magnitude = m * 10 ^ u ∧ m < tenTo n.significant ∧
      (n.significant ≠ 0 → tenTo (n.significant - 1) ≤ m ∧ m % 10 ≠ 0) := by
  have hd := h.isDigit_digits
  obtain ⟨z, hz⟩ := exists_ofDigitChars_rdropWhile (n.digits.dropWhile isZero)
  rw [ofDigitChars_dropWhile] at hz
  refine ⟨Nat.ofDigitChars 10 (significantDigits n.digits) 0, z - n.fraction.length, ?_,
    ofDigitChars_lt (isDigit_of_mem_significantDigits hd), fun hne => ⟨?_, ?_⟩⟩
  · rw [magnitude_eq, hz, Nat.cast_mul, cast_tenTo, cast_tenTo, zpow_sub₀ (by norm_num),
      zpow_natCast, zpow_natCast, mul_div_assoc]
    rfl
  · obtain ⟨c, cs, hcs⟩ := List.exists_cons_of_length_pos (Nat.pos_of_ne_zero hne)
    have hc := isDigit_of_mem_significantDigits hd c (hcs ▸ List.mem_cons_self ..)
    rw [significant, hcs]
    exact tenTo_le_ofDigitChars hc (ne_zero_of_significantDigits hcs)
  · exact mod_ten_of_significantDigits hd fun hnil => hne (congrArg List.length hnil)

/-- **No number is written with fewer digits than are significant.** -/
theorem significant_le {n : PlainNumber} (h : n.WellFormed) {c k : Nat} {s : ℤ}
    (hvalue : n.magnitude = c * 10 ^ s) (hc : c < tenTo k) : n.significant ≤ k := by
  obtain ⟨m, u, hm, -, hsignificant⟩ := exists_significand h
  by_cases hzero : n.significant = 0
  · omega
  · obtain ⟨hfirst, hlast⟩ := hsignificant hzero
    have heq : (m : ℚ) * 10 ^ u = c * 10 ^ s := hm.symm.trans hvalue
    have hmc : m ≤ c := by
      rw [eq_mul_tenTo heq (le_of_mod_ten_ne_zero heq hlast)]
      exact Nat.le_mul_of_pos_right m (tenTo_pos _)
    have hlt : tenTo (n.significant - 1) < tenTo k := by omega
    have := tenTo_lt_tenTo_iff.1 hlt
    omega

theorem Reduced.minimal {n : PlainNumber} (h : n.Reduced) :
    n.fraction.length = 0 ∨ Nat.ofDigitChars 10 n.digits 0 % 10 ≠ 0 := by
  rcases List.eq_nil_or_concat n.fraction with hnil | ⟨ds, d, hds⟩
  · exact .inl (congrArg List.length hnil)
  · rw [List.concat_eq_append] at hds
    have hdigit := h.fraction_digits d (hds ▸ List.mem_append_right _ (List.mem_singleton_self d))
    have hlt := digitValue_lt hdigit
    have hne : digitValue d ≠ 0 := by
      intro hzero
      have hlast := h.fraction_last
      rw [hds, List.getLast?_concat, ← digitChar_digitValue hdigit, hzero] at hlast
      exact hlast rfl
    rw [digits, hds, ← List.append_assoc, ofDigitChars_concat]
    omega

end PlainNumber

/-! ## Decimals -/

namespace Decimal

theorem strip_le (c p : Nat) : (strip c p).2 ≤ p := by
  induction p generalizing c with
  | zero => exact Nat.le_refl 0
  | succ p ih =>
    unfold strip
    split
    · exact Nat.le_succ_of_le (ih _)
    · exact Nat.le_refl _

theorem strip_of_minimal {c p : Nat} (h : p = 0 ∨ c % 10 ≠ 0) : strip c p = (c, p) := by
  rcases h with rfl | h
  · rfl
  · cases p with
    | zero => rfl
    | succ p => exact if_neg h

theorem length_fraction_plain_le (d : Decimal) : d.plain.fraction.length ≤ d.places := by
  unfold plain
  rw [length_lastDigits]
  exact strip_le ..

theorem digitChar_ne_zero : ∀ n < 10, n ≠ 0 → Nat.digitChar n ≠ '0' := by decide

/-- **The text of a decimal has no superfluous digit.** -/
theorem reduced_plain (d : Decimal) : d.plain.Reduced where
  whole := canonicalDigits_toDigits _
  fraction_digits := d.wellFormed_plain.fraction_digits
  fraction_last := by
    have hstrip := strip_minimal d.coefficient d.places
    unfold plain
    generalize strip d.coefficient d.places = s at hstrip ⊢
    obtain ⟨c, p⟩ := s
    cases p with
    | zero => exact nofun
    | succ p =>
      have hmod : c % 10 ≠ 0 := hstrip.resolve_left (Nat.succ_ne_zero p)
      simp only [lastDigits, List.getLast?_concat, ne_eq, Option.some_inj]
      exact digitChar_ne_zero _ (Nat.mod_lt _ (by decide)) hmod

/-- Superfluous places are the zeros at the end of the fraction. -/
theorem lastDigits_strip (c p : Nat) :
    lastDigits (strip c p).2 (strip c p).1 = (lastDigits p c).rdropWhile isZero := by
  induction p generalizing c with
  | zero => rfl
  | succ p ih =>
    unfold strip
    split
    · next h =>
      rw [ih, lastDigits, h, List.rdropWhile_concat_pos _ _ _ rfl]
    · next h =>
      have hdigit : ¬ isZero (Nat.digitChar (c % 10)) = true := fun hzero =>
        digitChar_ne_zero _ (Nat.mod_lt _ (by decide)) h (isZero_iff.1 hzero)
      rw [lastDigits, List.rdropWhile_concat_neg _ _ _ hdigit]

theorem lastDigits_mod (p n : Nat) : lastDigits p (n % tenTo p) = lastDigits p n := by
  induction p generalizing n with
  | zero => rfl
  | succ p ih =>
    rw [lastDigits, lastDigits, tenTo_succ, Nat.mod_mul_left_mod, Nat.mod_mul_left_div_self, ih]

theorem strip_div (c p : Nat) : (strip c p).1 / tenTo (strip c p).2 = c / tenTo p := by
  have hvalue := strip_value c p
  calc (strip c p).1 / tenTo (strip c p).2
      = (strip c p).1 * tenTo p / (tenTo (strip c p).2 * tenTo p) :=
        (Nat.mul_div_mul_right _ _ (tenTo_pos p)).symm
    _ = c * tenTo (strip c p).2 / (tenTo p * tenTo (strip c p).2) := by
        rw [hvalue, Nat.mul_comm (tenTo p)]
    _ = c / tenTo p := Nat.mul_div_mul_right _ _ (tenTo_pos _)

theorem strip_places_eq_zero_iff (c p : Nat) : (strip c p).2 = 0 ↔ c % tenTo p = 0 := by
  obtain ⟨z, hz⟩ := exists_ofDigitChars_rdropWhile (lastDigits p c)
  rw [← lastDigits_strip, ofDigitChars_lastDigits, ofDigitChars_lastDigits] at hz
  constructor
  · intro h
    rw [hz, h, tenTo_zero, Nat.mod_one, Nat.zero_mul]
  · intro h
    rw [h] at hz
    have hzero : (strip c p).1 % tenTo (strip c p).2 = 0 :=
      (Nat.mul_eq_zero.1 hz.symm).resolve_right (tenTo_pos z).ne'
    rcases strip_minimal c p with hplaces | hlast
    · exact hplaces
    · by_contra hne
      obtain ⟨q, hq⟩ := Nat.exists_eq_succ_of_ne_zero hne
      rw [hq, Nat.succ_eq_add_one, tenTo_succ] at hzero
      have hten : 10 ∣ (strip c p).1 := (Dvd.intro_left _ rfl).trans (Nat.dvd_of_mod_eq_zero hzero)
      exact hlast (Nat.mod_eq_zero_of_dvd hten)

/-- A decimal is written as its whole part and its remainder, without the zeros at
    the end. -/
theorem chars_eq (negative : Bool) (c p : Nat) :
    (Decimal.mk negative c p).chars = (if negative then ['-'] else []) ++
      Nat.toDigits 10 (c / tenTo p) ++
        if c % tenTo p = 0 then [] else '.' :: (lastDigits p (c % tenTo p)).rdropWhile isZero := by
  rw [lastDigits_mod, ← lastDigits_strip, ← strip_div]
  simp only [← strip_places_eq_zero_iff]
  rfl

theorem text_ofInt (i : Int) : (ofInt i).text = i.repr := by
  rw [← String.toList_inj, text, String.toList_ofList, chars_ofInt]
  cases i with
  | ofNat n =>
    have hnonneg : ¬ Int.ofNat n < 0 := Int.not_lt.2 (Int.natCast_nonneg n)
    rw [if_neg hnonneg, Int.repr, Nat.toList_repr]
    rfl
  | negSucc n =>
    rw [if_pos (Int.negSucc_lt_zero n), Int.repr, String.toList_append, Nat.toList_repr]
    rfl

theorem read_text (d : Decimal) : PlainNumber.read d.text.toList = some (d.plain, []) := by
  have hread := PlainNumber.read_chars d.wellFormed_plain PlainNumber.ends_nil
  rwa [List.append_nil, chars_plain, ← String.toList_ofList (l := d.chars)] at hread

theorem plain_of_reduced {n : PlainNumber} (h : n.Reduced) :
    (Decimal.mk n.negative (Nat.ofDigitChars 10 n.digits 0) n.fraction.length).plain = n := by
  have hdiv : Nat.ofDigitChars 10 n.digits 0 / tenTo n.fraction.length =
      Nat.ofDigitChars 10 n.whole 0 := by
    rw [n.ofDigitChars_digits, Nat.mul_add_div (tenTo_pos _),
      Nat.div_eq_of_lt (ofDigitChars_lt h.fraction_digits), Nat.add_zero]
  have hlast : lastDigits n.fraction.length (Nat.ofDigitChars 10 n.digits 0) = n.fraction := by
    rw [PlainNumber.digits, Nat.ofDigitChars_append, lastDigits_ofDigitChars h.fraction_digits]
  unfold plain
  simp only [strip_of_minimal h.minimal, hdiv, hlast, toDigits_ofDigitChars h.whole]

/-- **A number is written without superfluous digits in one way only.** -/
theorem eq_of_magnitude_eq {n m : PlainNumber} (hn : n.Reduced) (hm : m.Reduced)
    (hsign : n.negative = m.negative) (h : n.magnitude = m.magnitude) : n = m := by
  wlog hle : n.fraction.length ≤ m.fraction.length generalizing n m
  · exact (this hm hn hsign.symm h.symm (Nat.le_of_not_le hle)).symm
  have hscaled : (Nat.ofDigitChars 10 n.digits 0 : ℚ) * 10 ^ (-(n.fraction.length : ℤ)) =
      Nat.ofDigitChars 10 m.digits 0 * 10 ^ (-(m.fraction.length : ℤ)) := by
    rw [zpow_neg, zpow_neg, zpow_natCast, zpow_natCast, ← cast_tenTo, ← cast_tenTo,
      ← div_eq_mul_inv, ← div_eq_mul_inv, ← n.magnitude_eq, ← m.magnitude_eq, h]
  have hdigits := eq_mul_tenTo hscaled (by omega)
  have hplaces : n.fraction.length = m.fraction.length := by
    rcases hm.minimal with hnone | hlast
    · omega
    · have := le_of_mod_ten_ne_zero hscaled.symm hlast
      omega
  have hzero : (-(n.fraction.length : ℤ) - -(m.fraction.length : ℤ)).toNat = 0 := by omega
  rw [hzero, tenTo_zero, Nat.mul_one] at hdigits
  rw [← plain_of_reduced hn, ← plain_of_reduced hm, hsign, hplaces, hdigits]

theorem magnitude_plain (d : Decimal) : d.plain.magnitude = d.coefficient / tenTo d.places := by
  have hvalue := d.value_plain
  have hsign : d.plain.negative = d.negative := rfl
  unfold PlainNumber.value value at hvalue
  rw [hsign] at hvalue
  cases hneg : d.negative with
  | false => simpa [hneg] using hvalue
  | true =>
    rw [hneg, if_pos rfl, if_pos rfl, neg_div] at hvalue
    exact neg_injective hvalue

end Decimal

end ScriptLiteral
