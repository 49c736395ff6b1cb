/-
  Script literals — plain numbers as they are written.

  A plain number is a sign, whole digits, and digits after a point.  The text of
  every decimal is one, and of the same value.

  * `PlainNumber.read` takes a plain number from a text, and `read_chars` says
    that it takes back what was written, whatever follows that does not
    continue a number;
  * `Decimal.plain` is a decimal as it is written: `chars_plain` are its
    characters and `value_plain` its value.
-/
import Mathlib
import ScriptLiteral.Decimal
import ScriptLiteral.Digits

namespace ScriptLiteral

/-- A number as it is written: sign, whole digits, and digits after the point.
    There is no point iff there are no digits after it. -/
structure PlainNumber where
  negative : Bool
  whole : List Char
  fraction : List Char
deriving DecidableEq

namespace PlainNumber

/-- Digits on both sides of the point, and at least one in front of it. -/
structure WellFormed (n : PlainNumber) : Prop where
  whole_ne : n.whole ≠ []
  whole_digits : ∀ c ∈ n.whole, c.isDigit = true
  fraction_digits : ∀ c ∈ n.fraction, c.isDigit = true

/-- The characters of a sign. -/
def signChars (negative : Bool) : List Char := if negative then ['-'] else []

/-- The characters of a plain number. -/
def chars (n : PlainNumber) : List Char :=
  signChars n.negative ++ n.whole ++ if n.fraction = [] then [] else '.' :: n.fraction

/-- The magnitude of a plain number. -/
def magnitude (n : PlainNumber) : ℚ :=
  Nat.ofDigitChars 10 n.whole 0 + Nat.ofDigitChars 10 n.fraction 0 / tenTo n.fraction.length

/-- The number that a plain number stands for. -/
def value (n : PlainNumber) : ℚ := if n.negative then -n.magnitude else n.magnitude

/-! ## Reading -/

/-- Take the digits in front of a text. -/
def takeDigits (text : List Char) : List Char × List Char :=
  (text.takeWhile Char.isDigit, text.dropWhile Char.isDigit)

/-- Take a plain number whose sign has been taken.  A point must be followed by a
    digit. -/
def readUnsigned (negative : Bool) (text : List Char) : Option (PlainNumber × List Char) :=
  let (whole, rest) := takeDigits text
  if whole = [] then none else
    match rest with
    | '.' :: rest =>
      let (fraction, rest) := takeDigits rest
      if fraction = [] then none else some (⟨negative, whole, fraction⟩, rest)
    | rest => some (⟨negative, whole, []⟩, rest)

/-- Take a plain number from a text. -/
def read : List Char → Option (PlainNumber × List Char)
  | '-' :: rest => readUnsigned true rest
  | text => readUnsigned false text

/-- A text that does not continue a number: it starts neither with a digit nor
    with a point. -/
def Ends (rest : List Char) : Prop := ∀ c, rest.head? = some c → c.isDigit = false ∧ c ≠ '.'

theorem ends_nil : Ends [] := nofun

theorem ends_cons {c : Char} (h : c.isDigit = false ∧ c ≠ '.') (rest : List Char) :
    Ends (c :: rest) := by
  rintro _ ⟨⟩
  exact h

theorem takeDigits_append {ds rest : List Char} (hd : ∀ c ∈ ds, c.isDigit = true)
    (hr : ∀ c, rest.head? = some c → c.isDigit = false) : takeDigits (ds ++ rest) = (ds, rest) := by
  unfold takeDigits
  rw [List.takeWhile_append_of_pos hd, List.dropWhile_append_of_pos hd]
  cases rest with
  | nil => simp
  | cons c rest => simp [hr c rfl]

theorem readUnsigned_chars {n : PlainNumber} (h : n.WellFormed) {rest : List Char}
    (hr : Ends rest) :
    readUnsigned n.negative
        (n.whole ++ ((if n.fraction = [] then [] else '.' :: n.fraction) ++ rest)) =
      some (n, rest) := by
  obtain ⟨negative, whole, fraction⟩ := n
  obtain ⟨hne, hw, hf⟩ := h
  dsimp only at hne hw hf ⊢
  have hr' : ∀ c, rest.head? = some c → c.isDigit = false := fun c hc => (hr c hc).1
  unfold readUnsigned
  by_cases he : fraction = []
  · subst he
    simp only [if_true, List.nil_append, takeDigits_append hw hr', if_neg hne]
    split
    · exact absurd rfl (hr '.' rfl).2
    · rfl
  · have hpoint : ∀ c, ('.' :: (fraction ++ rest)).head? = some c → c.isDigit = false := by
      rintro _ ⟨⟩; rfl
    simp only [if_neg he, List.cons_append, takeDigits_append hw hpoint, if_neg hne,
      takeDigits_append hf hr']

/-- **A plain number is taken back as it was written.** -/
theorem read_chars {n : PlainNumber} (h : n.WellFormed) {rest : List Char} (hr : Ends rest) :
    read (n.chars ++ rest) = some (n, rest) := by
  have hu := readUnsigned_chars h hr
  rw [chars, List.append_assoc, List.append_assoc]
  rcases hn : n.negative with _ | _
  · obtain ⟨c, cs, hw⟩ := List.exists_cons_of_ne_nil h.whole_ne
    have hc : c ≠ '-' := by
      rintro rfl
      exact absurd (h.whole_digits '-' (hw ▸ List.mem_cons_self ..)) (by decide)
    rw [hn, hw, List.cons_append] at hu
    rw [hw, List.cons_append]
    unfold signChars read
    split
    · next e => exact absurd (List.cons.inj e).1 hc
    · exact hu
  · rw [hn] at hu
    exact hu

end PlainNumber

/-! ## Decimals -/

namespace Decimal

/-- The number that a decimal stands for. -/
def value (d : Decimal) : ℚ :=
  (if d.negative then -d.coefficient else d.coefficient : ℚ) / tenTo d.places

/-- A decimal as it is written. -/
def plain (d : Decimal) : PlainNumber :=
  let (c, p) := strip d.coefficient d.places
  ⟨d.negative, Nat.toDigits 10 (c / tenTo p), lastDigits p c⟩

theorem isDigit_of_mem_lastDigits {p n : Nat} {c : Char} (h : c ∈ lastDigits p n) :
    c.isDigit = true := by
  induction p generalizing n with
  | zero => nomatch h
  | succ p ih =>
    rcases List.mem_append.1 h with h | h
    · exact ih h
    · obtain rfl := List.mem_singleton.1 h
      have hlt : n % 10 < 10 := Nat.mod_lt _ (by decide)
      rw [← Nat.toDigits_of_lt_base hlt] at h
      exact Nat.isDigit_of_mem_toDigits (by decide) (by decide) h

theorem ofDigitChars_lastDigits (p n : Nat) :
    Nat.ofDigitChars 10 (lastDigits p n) 0 = n % tenTo p := by
  induction p generalizing n with
  | zero => rw [tenTo_zero, Nat.mod_one]; rfl
  | succ p ih =>
    have hd : digitValue (Nat.digitChar (n % 10)) = n % 10 :=
      Nat.toNat_digitChar_sub_48_of_lt_ten (Nat.mod_lt _ (by decide))
    rw [lastDigits, ofDigitChars_concat, ih, hd, tenTo_succ, Nat.mul_comm (tenTo p), Nat.mod_mul,
      Nat.add_comm]

theorem wellFormed_plain (d : Decimal) : d.plain.WellFormed where
  whole_ne := Nat.toDigits_ne_nil
  whole_digits _ h := Nat.isDigit_of_mem_toDigits (by decide) (by decide) h
  fraction_digits _ h := isDigit_of_mem_lastDigits h

theorem chars_plain (d : Decimal) : d.plain.chars = d.chars := by
  unfold chars plain PlainNumber.chars PlainNumber.signChars fraction
  obtain ⟨c, p⟩ := strip d.coefficient d.places
  cases p with
  | zero => simp [lastDigits]
  | succ p => simp [lastDigits]

theorem exists_chars_eq_cons (d : Decimal) :
    ∃ c cs, d.chars = c :: cs ∧ (c = '-' ∨ c.isDigit = true) := by
  obtain ⟨c, cs, hc⟩ := List.exists_cons_of_ne_nil d.wellFormed_plain.whole_ne
  rw [← chars_plain, PlainNumber.chars, hc]
  cases d.plain.negative with
  | true => exact ⟨_, _, rfl, .inl rfl⟩
  | false =>
    exact ⟨_, _, rfl, .inr (d.wellFormed_plain.whole_digits c (hc ▸ List.mem_cons_self ..))⟩

/-- **A decimal is written exactly.** -/
theorem value_plain (d : Decimal) : d.plain.value = d.value := by
  have hs := strip_value d.coefficient d.places
  unfold plain PlainNumber.value PlainNumber.magnitude value
  generalize strip d.coefficient d.places = s at hs ⊢
  obtain ⟨c, p⟩ := s
  dsimp only at hs ⊢
  rw [Nat.ofDigitChars_ten_toDigits, ofDigitChars_lastDigits, length_lastDigits]
  have hp : (tenTo p : ℚ) ≠ 0 := by exact_mod_cast (tenTo_pos p).ne'
  have hq : (tenTo d.places : ℚ) ≠ 0 := by exact_mod_cast (tenTo_pos d.places).ne'
  have hc : (c : ℚ) = (c / tenTo p : Nat) * tenTo p + (c % tenTo p : Nat) := by
    exact_mod_cast (Nat.div_add_mod' c (tenTo p)).symm
  have hm : ((c / tenTo p : Nat) + (c % tenTo p : Nat) / tenTo p : ℚ) =
      d.coefficient / tenTo d.places := by
    rw [eq_div_iff hq]
    refine mul_right_cancel₀ hp ?_
    calc ((c / tenTo p : Nat) + (c % tenTo p : Nat) / tenTo p : ℚ) * tenTo d.places * tenTo p
        = c * tenTo d.places := by rw [hc]; field_simp
      _ = d.coefficient * tenTo p := by exact_mod_cast hs
  cases d.negative with
  | true => simp only [if_true, hm, neg_div]
  | false => simp only [Bool.false_eq_true, if_false, hm]

end Decimal

end ScriptLiteral
