/-
  Script literals — double-precision and single-precision numbers.

  A double is a sign and a rank (`Rank`, with 52 fraction bits): rank `0` is
  zero, the ranks below `infinityRank` are the finite numbers in increasing
  order, `infinityRank` is infinity, and the ranks above it are the numbers
  that are none (NaN).

  * `ofBits` and `toBits` are the 64-bit encoding, inverse to each other
    (`ofBits_toBits`, `toBits_ofBits`);
  * `nearest` rounds a quotient, ties to the even rank; `ofInt`, `mul` and `div`
    are its uses;
  * `numEq` is equality of numbers: NaN differs from itself, and the two zeros
    are equal;
  * `Single` is a single-precision number by its 32-bit word, and
    `Single.toDouble` the double of exactly the same value: every number of the
    smaller format is one of the larger.
-/
import ScriptLiteral.Rank

namespace ScriptLiteral

/-- A double-precision number: a sign and one of `2 ^ 63` ranks. -/
structure Double where
  negative : Bool
  rank : Nat
  rank_lt : rank < 0x8000000000000000
deriving DecidableEq

namespace Double

/-! ## Classes of doubles -/

/-- The rank of infinity: all exponent bits set, no fraction bit. -/
def infinityRank : Nat := 0x7FF0000000000000

theorem infinityRank_lt : infinityRank < 0x8000000000000000 := by decide

/-- A number that is none. -/
def IsNaN (d : Double) : Prop := infinityRank < d.rank

/-- A number of finite size. -/
def IsFinite (d : Double) : Prop := d.rank < infinityRank

instance (d : Double) : Decidable d.IsNaN := inferInstanceAs (Decidable (_ < _))

instance (d : Double) : Decidable d.IsFinite := inferInstanceAs (Decidable (_ < _))

/-- Zero, with a sign. -/
def zero (negative : Bool) : Double := ⟨negative, 0, by decide⟩

/-- Infinity, with a sign. -/
def infinity (negative : Bool) : Double := ⟨negative, infinityRank, infinityRank_lt⟩

/-- The quiet NaN. -/
def nan : Double := ⟨false, 0x7FF8000000000000, by decide⟩

/-- The same number with the given sign. -/
def withSign (d : Double) (negative : Bool) : Double := ⟨negative, d.rank, d.rank_lt⟩

/-! ## Encoding -/

/-- The double of a 64-bit word: the top bit is the sign, the rest the rank. -/
def ofBits (w : UInt64) : Double :=
  ⟨decide (0x8000000000000000 ≤ w.toNat), w.toNat % 0x8000000000000000, Nat.mod_lt _ (by decide)⟩

/-- The 64-bit word of a double. -/
def toBits (d : Double) : UInt64 :=
  UInt64.ofNat ((if d.negative then 0x8000000000000000 else 0) + d.rank)

theorem toNat_toBits (d : Double) :
    d.toBits.toNat = (if d.negative then 0x8000000000000000 else 0) + d.rank := by
  have h := d.rank_lt
  rw [toBits, UInt64.toNat_ofNat']
  apply Nat.mod_eq_of_lt
  cases d.negative <;> simp <;> omega

@[simp] theorem ofBits_toBits (d : Double) : ofBits d.toBits = d := by
  have h := d.rank_lt
  obtain ⟨n, r, hr⟩ := d
  simp only [ofBits, toNat_toBits, Double.mk.injEq]
  cases n <;> simp <;> omega

@[simp] theorem toBits_ofBits (w : UInt64) : (ofBits w).toBits = w := by
  apply UInt64.toNat_inj.1
  have h := w.toNat_lt
  rw [toNat_toBits]
  simp only [ofBits, decide_eq_true_eq]
  split <;> omega

/-! ## Rounding -/

/-- The least positive double is two to the power of minus this. -/
@[irreducible] def leastExponent : Nat := 1074

/-- The number of quanta in one. -/
def unity : Nat := twoTo leastExponent

theorem unity_pos : 0 < unity := twoTo_pos _

/-- The magnitude in quanta.  At infinity it is the power of two
    that would follow the greatest finite number. -/
def quanta (d : Double) : Nat := Rank.quanta 52 d.rank

/-- The double nearest to `± num / den`, the even one of two equally near;
    infinity from half a step above the greatest finite number on. -/
def nearest (negative : Bool) (num den : Nat) : Double :=
  ⟨negative, min infinityRank (Rank.nearest 52 (num * unity) den),
    Nat.lt_of_le_of_lt (Nat.min_le_left ..) infinityRank_lt⟩

/-- The double nearest to an integer. -/
def ofInt (i : Int) : Double := nearest (decide (i < 0)) i.natAbs 1

/-- The product of two finite doubles, rounded to nearest. -/
def mul (a b : Double) : Double :=
  nearest (a.negative != b.negative) (a.quanta * b.quanta) (unity * unity)

/-- The quotient of two finite doubles, the divisor not zero, rounded to
    nearest. -/
def div (a b : Double) : Double :=
  nearest (a.negative != b.negative) a.quanta b.quanta

theorem not_isNaN_nearest (negative : Bool) (num den : Nat) :
    ¬ (nearest negative num den).IsNaN :=
  Nat.not_lt.2 (Nat.min_le_left ..)

/-! ## Equality of numbers -/

/-- Equality of numbers: NaN equals nothing, the two zeros equal each other. -/
def numEq (a b : Double) : Bool :=
  decide (¬ a.IsNaN) && decide (¬ b.IsNaN) &&
    (decide (a = b) || decide (a.rank = 0) && decide (b.rank = 0))

theorem numEq_iff {a b : Double} :
    a.numEq b = true ↔ ¬ a.IsNaN ∧ ¬ b.IsNaN ∧ (a = b ∨ a.rank = 0 ∧ b.rank = 0) := by
  simp [numEq, and_assoc]

theorem numEq_self {a : Double} : a.numEq a = true ↔ ¬ a.IsNaN := by
  simp [numEq_iff]

end Double

/-! ## Single precision -/

/-- A single-precision number, by its encoding. -/
structure Single where
  bits : UInt32
deriving DecidableEq

namespace Single

/-- The rank of the magnitude: the encoding without its sign. -/
def rank (s : Single) : Nat := s.bits.toNat % 0x80000000

/-- Whether the sign bit is set. -/
def negative (s : Single) : Bool := decide (0x80000000 ≤ s.bits.toNat)

/-- The rank of infinity in single precision. -/
def infinityRank : Nat := 0x7F800000

/-- The double of the same value.  A finite single is a multiple of `2 ^ -149`. -/
def toDouble (s : Single) : Double :=
  if s.rank < infinityRank then
    Double.nearest s.negative (Rank.quanta 23 s.rank) (twoTo 149)
  else if s.rank = infinityRank then Double.infinity s.negative
  else Double.nan.withSign s.negative

end Single

end ScriptLiteral
