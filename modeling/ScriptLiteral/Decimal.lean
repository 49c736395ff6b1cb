/-
  Script literals — exact decimals and their plain text.

  A decimal is a sign, a coefficient and a number of places: it stands for
  `± coefficient / 10 ^ places`.  Its text never has an exponent and no
  superfluous zero, and keeps the sign of a zero.

  * `strip` is the pair of coefficient and places with the fewest places, and
    `strip_value`, `strip_minimal` say that it denotes the same number and that
    no place of it is superfluous;
  * `lastDigits` are the low digits of a number, leading zeros included;
  * `Decimal.text` is the text, `Decimal.ofInt` the decimal of an integer.
-/
import ScriptLiteral.Digits

namespace ScriptLiteral

/-- The number `± coefficient / 10 ^ places`. -/
structure Decimal where
  negative : Bool
  coefficient : Nat
  places : Nat
deriving DecidableEq

namespace Decimal

/-! ## Dropping superfluous places -/

/-- Write `c / 10 ^ p` with as few places as possible: each zero at the end of
    the fraction is dropped. -/
def strip (c : Nat) : Nat → Nat × Nat
  | 0 => (c, 0)
  | p + 1 => if c % 10 = 0 then strip (c / 10) p else (c, p + 1)

theorem strip_value (c p : Nat) : (strip c p).1 * tenTo p = c * tenTo (strip c p).2 := by
  induction p generalizing c with
  | zero => rfl
  | succ p ih =>
    unfold strip
    split
    · next h =>
      have hc : c = c / 10 * 10 := by omega
      calc (strip (c / 10) p).1 * tenTo (p + 1)
          = (strip (c / 10) p).1 * tenTo p * 10 := by rw [tenTo_succ, Nat.mul_assoc]
        _ = c / 10 * tenTo (strip (c / 10) p).2 * 10 := by rw [ih]
        _ = c / 10 * 10 * tenTo (strip (c / 10) p).2 := Nat.mul_right_comm ..
        _ = c * tenTo (strip (c / 10) p).2 := by rw [← hc]
    · rfl

theorem strip_minimal (c p : Nat) : (strip c p).2 = 0 ∨ (strip c p).1 % 10 ≠ 0 := by
  induction p generalizing c with
  | zero => exact .inl rfl
  | succ p ih =>
    unfold strip
    split
    · exact ih _
    · next h => exact .inr h

theorem strip_zero (c : Nat) : strip c 0 = (c, 0) := rfl

/-! ## Digits -/

/-- The last `p` decimal digits of `n`, most significant first. -/
def lastDigits : Nat → Nat → List Char
  | 0, _ => []
  | p + 1, n => lastDigits p (n / 10) ++ [Nat.digitChar (n % 10)]

@[simp] theorem length_lastDigits (p n : Nat) : (lastDigits p n).length = p := by
  induction p generalizing n with
  | zero => rfl
  | succ p ih => simp [lastDigits, ih]

/-- The fraction `c % 10 ^ p / 10 ^ p` behind its point; nothing if there are no
    places. -/
def fraction (c p : Nat) : List Char :=
  if p = 0 then [] else '.' :: lastDigits p c

/-! ## Text -/

/-- The characters of a decimal: sign, whole part, fraction. -/
def chars (d : Decimal) : List Char :=
  let (c, p) := strip d.coefficient d.places
  (if d.negative then ['-'] else []) ++ Nat.toDigits 10 (c / tenTo p) ++ fraction c p

/-- The plain text of a decimal. -/
def text (d : Decimal) : String := String.ofList d.chars

/-- An integer as a decimal without places. -/
def ofInt (i : Int) : Decimal := ⟨decide (i < 0), i.natAbs, 0⟩

theorem chars_ofInt (i : Int) :
    (ofInt i).chars = (if i < 0 then ['-'] else []) ++ Nat.toDigits 10 i.natAbs := by
  simp [chars, ofInt, strip_zero, fraction]

end Decimal

end ScriptLiteral
