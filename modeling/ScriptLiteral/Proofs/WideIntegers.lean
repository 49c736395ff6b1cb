/-
  Script literals — integers that 64 signed bits do not hold.

  The value of an integer is the integer itself as long as 64 signed bits hold it, and
  the closest double otherwise.  Both ends of the signed words are doubles, or next to
  one, so the order of integers is kept where the representation changes, too.

  * `MachineInt.natAbs_val_lt` and `Double.isFinite_ofInt`: the double of an integer of
    any type is finite;
  * `Value.number?` is the exact number that a value stands for;
  * `Value.ofInt_eq_integer_iff` and `Value.number?_ofInt_le`: which integers are kept,
    and that their order is;
  * `Value.ofMachineInt_closest` puts these together for integers of all types.
-/
import Mathlib
import ScriptLiteral.Proofs.Closest
import ScriptLiteral.Value

namespace ScriptLiteral

/-! ## The widest integers -/

theorem IntType.bounds (t : IntType) :
    -0x80000000000000000000000000000000 ≤ t.least ∧
      t.greatest < 0x100000000000000000000000000000000 := by
  obtain ⟨signed, width⟩ := t
  cases signed <;> cases width <;> decide

theorem MachineInt.natAbs_val_lt (m : MachineInt) :
    m.val.natAbs < 0x100000000000000000000000000000000 := by
  have hbounds := m.type.bounds
  have hleast := m.least_le
  have hgreatest := m.le_greatest
  omega

namespace Double

theorem isFinite_ofInt {i : ℤ} (h : i.natAbs < 0x100000000000000000000000000000000) :
    (ofInt i).IsFinite := by
  have hpower : 0x100000000000000000000000000000000 * unity ≤
      Rank.quanta 52 0x47F0000000000000 * 1 := by
    decide +kernel
  exact isFinite_nearest Nat.one_pos (by decide) (le_trans (Nat.mul_le_mul_right unity h.le) hpower)

theorem numberAt_rank_wordBound : numberAt 0x43E0000000000000 = 0x8000000000000000 := by
  have hencoded := numberAt_encoded 0x43E (f := 0) (by norm_num)
  norm_num at hencoded ⊢
  exact hencoded

theorem value_ofInt_wordBound : (ofInt 0x8000000000000000).value = 0x8000000000000000 := by
  have hrank : (ofInt 0x8000000000000000).rank = 0x43E0000000000000 := by decide +kernel
  rw [value_ofInt, hrank, numberAt_rank_wordBound, if_neg (by decide)]

theorem value_ofInt_neg_wordBound :
    (ofInt (-0x8000000000000000)).value = -0x8000000000000000 := by
  have hrank : (ofInt (-0x8000000000000000)).rank = 0x43E0000000000000 := by decide +kernel
  rw [value_ofInt, hrank, numberAt_rank_wordBound, if_pos (by decide)]

end Double

namespace Value

/-! ## Values of integers -/

/-- The exact number that a value stands for, if it is a finite number. -/
def number? : Value → Option ℚ
  | integer i => some i.toInt
  | float d => if d.IsFinite then some d.value else none
  | _ => none

theorem ofInt_of_mem {i : ℤ} (h : -0x8000000000000000 ≤ i ∧ i < 0x8000000000000000) :
    ofInt i = integer (Int64.ofInt i) := by
  have hmin : Int64.minValue.toInt = -0x8000000000000000 := rfl
  have hmax : Int64.maxValue.toInt = 0x7FFFFFFFFFFFFFFF := rfl
  rw [ofInt, if_pos (by omega)]

theorem ofInt_of_notMem {i : ℤ} (h : ¬ (-0x8000000000000000 ≤ i ∧ i < 0x8000000000000000)) :
    ofInt i = float (Double.ofInt i) := by
  have hmin : Int64.minValue.toInt = -0x8000000000000000 := rfl
  have hmax : Int64.maxValue.toInt = 0x7FFFFFFFFFFFFFFF := rfl
  rw [ofInt, if_neg (by omega)]

theorem ofInt_eq_integer_iff {i : ℤ} {w : Int64} : ofInt i = integer w ↔ w.toInt = i := by
  constructor
  · intro h
    by_cases hi : -0x8000000000000000 ≤ i ∧ i < 0x8000000000000000
    · rw [ofInt_of_mem hi] at h
      obtain rfl := Value.integer.inj h
      exact Int64.toInt_ofInt_of_le hi.1 hi.2
    · rw [ofInt_of_notMem hi] at h
      cases h
  · rintro rfl
    exact ofInt_toInt w

theorem number?_ofInt {i : ℤ} (h : (Double.ofInt i).IsFinite) : (ofInt i).number? =
    some (if -0x8000000000000000 ≤ i ∧ i < 0x8000000000000000 then (i : ℚ)
      else (Double.ofInt i).value) := by
  split
  · next hi => rw [ofInt_of_mem hi, number?, Int64.toInt_ofInt_of_le hi.1 hi.2]
  · next hi => rw [ofInt_of_notMem hi, number?, if_pos h]

/-- **The order of integers is kept.** -/
theorem number?_ofInt_le {i j : ℤ} (hi : (Double.ofInt i).IsFinite)
    (hj : (Double.ofInt j).IsFinite) (h : i ≤ j) :
    ∃ x y, (ofInt i).number? = some x ∧ (ofInt j).number? = some y ∧ x ≤ y := by
  refine ⟨_, _, number?_ofInt hi, number?_ofInt hj, ?_⟩
  split
  · next hword =>
    split
    · exact_mod_cast h
    · next hwide =>
      -- the integer is below the end of the words, and that is rounded to itself
      have hend := Double.value_ofInt_le_value_ofInt (by omega : 0x8000000000000000 ≤ j)
      have hbelow : (i : ℚ) ≤ 0x8000000000000000 := by exact_mod_cast hword.2.le
      rw [Double.value_ofInt_wordBound] at hend
      exact hbelow.trans hend
  · next hwide =>
    split
    · next hword =>
      have hend := Double.value_ofInt_le_value_ofInt (by omega : i ≤ -0x8000000000000000)
      have habove : (-0x8000000000000000 : ℚ) ≤ j := by exact_mod_cast hword.1
      rw [Double.value_ofInt_neg_wordBound] at hend
      exact hend.trans habove
    · exact Double.value_ofInt_le_value_ofInt h

/-- **An integer that 64 signed bits do not hold becomes the closest double, and the
    order of integers is kept.**

    An integer of any type is kept iff 64 signed bits hold it.  Otherwise its value is a
    finite double, to which no other is preferred in rounding to nearest, ties to even.
    A greater integer never has the value of a lesser number, whichever of the two ways
    each of them goes. -/
theorem ofMachineInt_closest :
    (∀ m : MachineInt,
      (∀ i : Int64, ofMachineInt m = .integer i ↔ i.toInt = m.val) ∧
      ((∃ i : Int64, ofMachineInt m = .integer i) ↔
        -0x8000000000000000 ≤ m.val ∧ m.val < 0x8000000000000000) ∧
      (¬ (-0x8000000000000000 ≤ m.val ∧ m.val < 0x8000000000000000) →
        ∃ d : Double, ofMachineInt m = .float d ∧ d.IsClosest m.val)) ∧
    ∀ m n : MachineInt, m.val ≤ n.val →
      ∃ x y, (ofMachineInt m).number? = some x ∧ (ofMachineInt n).number? = some y ∧ x ≤ y := by
  have hfinite : ∀ m : MachineInt, (Double.ofInt m.val).IsFinite :=
    fun m => Double.isFinite_ofInt m.natAbs_val_lt
  refine ⟨fun m => ⟨fun i => ofInt_eq_integer_iff, ⟨?_, fun h => ⟨_, ofInt_of_mem h⟩⟩, fun h => ?_⟩,
    fun m n h => number?_ofInt_le (hfinite m) (hfinite n) h⟩
  · rintro ⟨i, hi⟩
    have hmin := i.minValue_le_toInt
    have hmax := i.toInt_le
    rw [ofInt_eq_integer_iff.1 hi] at hmin hmax
    exact ⟨hmin, Int.lt_of_le_sub_one hmax⟩
  · exact ⟨_, ofInt_of_notMem h, Double.isClosest_ofInt (hfinite m)⟩

/-- The greatest integer that 64 signed bits hold. -/
def greatestSigned : MachineInt := ⟨⟨true, .w64⟩, 0x7FFFFFFFFFFFFFFF, by decide, by decide⟩

/-- An integer on the midpoint between two doubles, of which the upper one has a power
    of two more. -/
def belowPower : MachineInt := ⟨⟨false, .w64⟩, 0xFFFFFFFFFFFFFC00, by decide, by decide⟩

/-- The greatest integer of all types. -/
def greatestInteger : MachineInt :=
  ⟨⟨false, .w128⟩, 0xFFFFFFFFFFFFFFFFFFFFFFFFFFFFFFFF, by decide, by decide⟩

theorem ofMachineInt_closest_belowPower :
    greatestSigned.val ≤ belowPower.val ∧ belowPower.val ≤ greatestInteger.val ∧
      ¬ (-0x8000000000000000 ≤ belowPower.val ∧ belowPower.val < 0x8000000000000000) ∧
      (∃ d : Double, ofMachineInt belowPower = .float d ∧ d.IsClosest belowPower.val ∧
        d.rank = 0x43F0000000000000) ∧
      (∃ x y, (ofMachineInt greatestSigned).number? = some x ∧
        (ofMachineInt belowPower).number? = some y ∧ x ≤ y) ∧
      ∃ x y, (ofMachineInt belowPower).number? = some x ∧
        (ofMachineInt greatestInteger).number? = some y ∧ x ≤ y := by
  have hwide : ¬ (-0x8000000000000000 ≤ belowPower.val ∧ belowPower.val < 0x8000000000000000) := by
    decide
  obtain ⟨hvalues, horder⟩ := ofMachineInt_closest
  obtain ⟨d, hd, hclosest⟩ := (hvalues belowPower).2.2 hwide
  have hrank : d.rank = 0x43F0000000000000 := by
    have hdouble : (Double.ofInt belowPower.val).rank = 0x43F0000000000000 := by decide +kernel
    have hvalue := (ofInt_of_notMem hwide).symm.trans hd
    rw [← Value.float.inj hvalue, hdouble]
  exact ⟨by decide, by decide, hwide, ⟨d, hd, hclosest, hrank⟩,
    horder greatestSigned belowPower (by decide), horder belowPower greatestInteger (by decide)⟩

end Value

end ScriptLiteral
