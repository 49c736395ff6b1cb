/-
  Script literals — the number that a numeral stands for.

  An integer numeral within 64 bits is that integer.  Any other numeral is a
  double, which need not be the nearest one: the leading digits go into a
  significand of 64 bits, whole digits that do not fit are counted, digits of
  the fraction that do not fit are dropped, and the significand is rounded to a
  double and then scaled by one rounded power of ten.

  * `absorb` takes digits into a number as long as it stays within a bound;
  * `scale` is the double of a significand and a decimal exponent, if it is
    finite;
  * `Numeral.number` is the number of a numeral, or the digits not looked at when
    the numeral was found to be out of range.
-/
import ScriptLiteral.Digits
import ScriptLiteral.Json.Basic
import ScriptLiteral.Json.Numeral

namespace ScriptLiteral

namespace Json

/-! ## Digits -/

/-- Take digits into the number `n` as long as it does not exceed `bound`; the
    digits from the first that does not fit are left. -/
def absorb (bound : Nat) : Nat → List Char → Nat × List Char
  | n, [] => (n, [])
  | n, c :: cs =>
    if 10 * n + digitValue c ≤ bound then absorb bound (10 * n + digitValue c) cs
    else (n, c :: cs)

theorem absorb_le {bound n : Nat} (h : n ≤ bound) (cs : List Char) :
    (absorb bound n cs).1 ≤ bound := by
  induction cs generalizing n with
  | nil => exact h
  | cons c cs ih =>
    unfold absorb
    split
    · next h' => exact ih h'
    · exact h

/-- The bound of a significand: 64 bits. -/
def significandBound : Nat := 0xFFFFFFFFFFFFFFFF

/-- The bound of a written exponent: 31 bits. -/
def exponentBound : Nat := 0x7FFFFFFF

/-! ## Scaling -/

/-- The greatest power of ten that is a finite double. -/
def greatestPower : Nat := 308

/-- The double nearest to a power of ten. -/
def powerOfTen (k : Nat) : Double := Double.nearest false (tenTo k) 1

/-- Divide by the greatest power of ten as often as told, or until nothing is
    left. -/
def divideOut (d : Double) : Nat → Double
  | 0 => d
  | n + 1 => if d.rank = 0 then d else divideOut (d.div (powerOfTen greatestPower)) n

/-- Divide by `10 ^ k`, in as few divisions as there are finite powers. -/
def lower (d : Double) (k : Nat) : Double :=
  let steps := (k - 1) / greatestPower
  (divideOut d steps).div (powerOfTen (k - steps * greatestPower))

/-- The double of `significand · 10 ^ exponent`, unless it is infinite. -/
def scale (significand : Nat) (exponent : Int) : Option Double :=
  let d := Double.nearest false significand 1
  if exponent < 0 then some (lower d (-exponent).toNat)
  else if exponent.toNat ≤ greatestPower then
    let product := d.mul (powerOfTen exponent.toNat)
    if product.IsFinite then some product else none
  else if d.rank = 0 then some d else none

/-! ## Numbers -/

/-- The number of a sign and an integer below `2 ^ 64`.  A negative one that 64
    signed bits do not hold, and a negative zero, are doubles. -/
def integerNumber (negative : Bool) (n : Nat) : Number :=
  if negative then
    if 0 < n ∧ n ≤ 0x8000000000000000 then .signed (Int64.ofInt (-n))
    else .float (Double.nearest true n 1)
  else .unsigned (UInt64.ofNat n)

/-- The number of a sign, a significand and an exponent; a failure is out of
    range. -/
def scaledNumber (negative : Bool) (significand : Nat) (exponent : Int) :
    Except (List Char) Number :=
  match scale significand exponent with
  | some d => .ok (.float (d.withSign negative))
  | none => .error []

/-- The number of a numeral.  If it is out of range, the digits at its end that
    were not needed to see it. -/
def Numeral.number (n : Numeral) : Except (List Char) Number :=
  let (whole, counted) := absorb significandBound 0 n.whole
  if n.IsInteger ∧ counted = [] then .ok (integerNumber n.negative whole)
  else
    let (significand, dropped) := absorb significandBound whole n.fraction
    let shift : Int := counted.length - (n.fraction.length - dropped.length : Nat)
    match n.exponent with
    | none => scaledNumber n.negative significand shift
    | some exponent =>
      match absorb exponentBound 0 exponent.digits with
      | (written, []) =>
        scaledNumber n.negative significand
          (if exponent.negative then shift - written else shift + written)
      | (_, _ :: unread) =>
        if significand = 0 ∨ exponent.negative then .ok (.float (Double.zero n.negative))
        else .error unread

end Json

end ScriptLiteral
