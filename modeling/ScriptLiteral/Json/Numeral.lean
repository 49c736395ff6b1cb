/-
  Script literals — the number tokens of JSON.

  A numeral is a number as it is written: sign, whole digits, digits after the
  point, exponent.  Whole digits have no superfluous zero in front, and a point
  or an exponent sign is followed by a digit.

  * `Numeral` is a numeral, and `Numeral.IsInteger` one without point and
    exponent;
  * `readWhole`, `readFraction` and `readExponent` take the parts of a numeral
    from a text, and `Numeral.read` takes a numeral whose sign has been taken;
  * `Numeral.read_shorter`: a numeral takes at least one character.
-/
import ScriptLiteral.Json.Error

namespace ScriptLiteral

namespace Json

/-- The exponent of a numeral: a sign and digits. -/
structure Exponent where
  negative : Bool
  digits : List Char
deriving DecidableEq

/-- A number as it is written.  There is no point iff the fraction is empty. -/
structure Numeral where
  negative : Bool
  whole : List Char
  fraction : List Char
  exponent : Option Exponent
deriving DecidableEq

namespace Numeral

/-- A numeral without point and exponent. -/
def IsInteger (n : Numeral) : Prop := n.fraction = [] ∧ n.exponent = none

instance (n : Numeral) : Decidable n.IsInteger := inferInstanceAs (Decidable (_ ∧ _))

/-! ## Reading -/

/-- Take the digits in front of the point.  A leading zero stands alone. -/
def readWhole : List Char → Except Failure (List Char × List Char)
  | [] => .error (.atEnd .endInValue)
  | '0' :: c :: rest =>
    if c.isDigit then .error (.atByte .invalidNumber (c :: rest)) else .ok (['0'], c :: rest)
  | c :: rest =>
    if c.isDigit then .ok (c :: rest.takeWhile Char.isDigit, rest.dropWhile Char.isDigit)
    else .error (.atByte .invalidNumber (c :: rest))

/-- Take a point and the digits after it, if there is a point. -/
def readFraction : List Char → Except Failure (List Char × List Char)
  | ['.'] => .error (.atEnd .endInValue)
  | '.' :: c :: rest =>
    if c.isDigit then .ok (c :: rest.takeWhile Char.isDigit, rest.dropWhile Char.isDigit)
    else .error (.atByte .invalidNumber (c :: rest))
  | rest => .ok ([], rest)

/-- Take the digits of an exponent. -/
def readExponentDigits (negative : Bool) : List Char → Except Failure (Exponent × List Char)
  | [] => .error (.atEnd .endInValue)
  | c :: rest =>
    if c.isDigit then
      .ok (⟨negative, c :: rest.takeWhile Char.isDigit⟩, rest.dropWhile Char.isDigit)
    else .error (.atByte .invalidNumber (c :: rest))

/-- Take the sign and digits of an exponent. -/
def readSignedExponent : List Char → Except Failure (Exponent × List Char)
  | '+' :: rest => readExponentDigits false rest
  | '-' :: rest => readExponentDigits true rest
  | rest => readExponentDigits false rest

/-- Take an exponent, if there is one. -/
def readExponent : List Char → Except Failure (Option Exponent × List Char)
  | c :: rest =>
    if c = 'e' ∨ c = 'E' then do
      let (exponent, rest) ← readSignedExponent rest
      return (some exponent, rest)
    else .ok (none, c :: rest)
  | [] => .ok (none, [])

/-- Take a numeral whose sign has been taken. -/
def read (negative : Bool) (text : List Char) : Except Failure (Numeral × List Char) := do
  let (whole, rest) ← readWhole text
  let (fraction, rest) ← readFraction rest
  let (exponent, rest) ← readExponent rest
  return (⟨negative, whole, fraction, exponent⟩, rest)

/-! ## What is left is shorter -/

theorem length_dropWhile_isDigit_le (s : List Char) :
    (s.dropWhile Char.isDigit).length ≤ s.length :=
  (List.dropWhile_sublist _).length_le

theorem readWhole_shorter {s : List Char} {r : List Char × List Char}
    (h : readWhole s = .ok r) : r.2.length < s.length := by
  unfold readWhole at h
  split at h
  · nomatch h
  · split at h
    · nomatch h
    · cases h; simp
  · next c rest _ =>
    split at h
    · cases h
      exact Nat.lt_succ_of_le (length_dropWhile_isDigit_le rest)
    · nomatch h

theorem readFraction_le {s : List Char} {r : List Char × List Char}
    (h : readFraction s = .ok r) : r.2.length ≤ s.length := by
  unfold readFraction at h
  split at h
  · nomatch h
  · next c rest =>
    split at h
    · cases h
      have := length_dropWhile_isDigit_le rest
      simp only [List.length_cons]
      omega
    · nomatch h
  · cases h; exact Nat.le_refl _

theorem readExponentDigits_le {negative : Bool} {s : List Char} {r : Exponent × List Char}
    (h : readExponentDigits negative s = .ok r) : r.2.length ≤ s.length := by
  unfold readExponentDigits at h
  split at h
  · nomatch h
  · next c rest =>
    split at h
    · cases h
      have := length_dropWhile_isDigit_le rest
      simp only [List.length_cons]
      omega
    · nomatch h

theorem readSignedExponent_le {s : List Char} {r : Exponent × List Char}
    (h : readSignedExponent s = .ok r) : r.2.length ≤ s.length := by
  unfold readSignedExponent at h
  split at h
  · exact Nat.le_succ_of_le (readExponentDigits_le h)
  · exact Nat.le_succ_of_le (readExponentDigits_le h)
  · exact readExponentDigits_le h

theorem readExponent_le {s : List Char} {r : Option Exponent × List Char}
    (h : readExponent s = .ok r) : r.2.length ≤ s.length := by
  unfold readExponent at h
  split at h
  · next c rest =>
    split at h
    · cases he : readSignedExponent rest with
      | error e => rw [he] at h; nomatch h
      | ok q =>
        rw [he] at h
        cases h
        exact Nat.le_succ_of_le (readSignedExponent_le he)
    · cases h; exact Nat.le_refl _
  · cases h; exact Nat.le_refl _

theorem read_shorter {negative : Bool} {s : List Char} {r : Numeral × List Char}
    (h : read negative s = .ok r) : r.2.length < s.length := by
  unfold read at h
  cases hw : readWhole s with
  | error e => rw [hw] at h; nomatch h
  | ok w =>
    cases hf : readFraction w.2 with
    | error e => rw [hw] at h; simp only [bind, Except.bind, hf] at h; nomatch h
    | ok f =>
      cases he : readExponent f.2 with
      | error e => rw [hw] at h; simp only [bind, Except.bind, hf, he] at h; nomatch h
      | ok e =>
        rw [hw] at h
        simp only [bind, Except.bind, hf, he] at h
        cases h
        have h₁ := readWhole_shorter hw
        have h₂ := readFraction_le hf
        have h₃ := readExponent_le he
        exact Nat.lt_of_le_of_lt (Nat.le_trans h₃ h₂) h₁

end Numeral

end Json

end ScriptLiteral
