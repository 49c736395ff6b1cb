/-
  Script literals — integers of fixed width.

  An integer type is a signedness and a width; a machine integer is an integer
  within the bounds of its type.  `MachineInt.ofInt?` checks the bounds.
-/
import ScriptLiteral.Digits

namespace ScriptLiteral

/-- The widths of integer types, in bits. -/
inductive Width where
  | w8
  | w16
  | w32
  | w64
  | w128
deriving DecidableEq

/-- The number of bits of a width. -/
def Width.bits : Width → Nat
  | w8 => 8
  | w16 => 16
  | w32 => 32
  | w64 => 64
  | w128 => 128

/-- An integer type. -/
structure IntType where
  signed : Bool
  width : Width
deriving DecidableEq

namespace IntType

/-- The least integer of a type. -/
def least (t : IntType) : Int := if t.signed then -(twoTo (t.width.bits - 1) : Nat) else 0

/-- The greatest integer of a type. -/
def greatest (t : IntType) : Int :=
  if t.signed then (twoTo (t.width.bits - 1) : Nat) - 1 else (twoTo t.width.bits : Nat) - 1

end IntType

/-- An integer within the bounds of an integer type. -/
structure MachineInt where
  type : IntType
  val : Int
  least_le : type.least ≤ val
  le_greatest : val ≤ type.greatest
deriving DecidableEq

namespace MachineInt

/-- The integer of a type with a given value, if the type holds it. -/
def ofInt? (t : IntType) (i : Int) : Option MachineInt :=
  if h : t.least ≤ i ∧ i ≤ t.greatest then some ⟨t, i, h.1, h.2⟩ else none

theorem ofInt?_val (m : MachineInt) : ofInt? m.type m.val = some m := by
  simp [ofInt?, m.least_le, m.le_greatest]

theorem ofInt?_eq_none_iff {t : IntType} {i : Int} :
    ofInt? t i = none ↔ ¬ (t.least ≤ i ∧ i ≤ t.greatest) := by
  unfold ofInt?
  split <;> simp_all

theorem greatest_u8 : IntType.greatest ⟨false, .w8⟩ = 0xFF := rfl

theorem greatest_u64 : IntType.greatest ⟨false, .w64⟩ = 0xFFFFFFFFFFFFFFFF := rfl

/-- A byte. -/
def ofUInt8 (b : UInt8) : MachineInt :=
  ⟨⟨false, .w8⟩, b.toNat, Int.natCast_nonneg _, by
    have := b.toNat_lt
    rw [greatest_u8]
    omega⟩

/-- An unsigned 64-bit word. -/
def ofUInt64 (n : UInt64) : MachineInt :=
  ⟨⟨false, .w64⟩, n.toNat, Int.natCast_nonneg _, by
    have := n.toNat_lt
    rw [greatest_u64]
    omega⟩

/-- A signed 64-bit word. -/
def ofInt64 (i : Int64) : MachineInt :=
  ⟨⟨true, .w64⟩, i.toInt, Int64.minValue_le_toInt i, Int64.toInt_le i⟩

end MachineInt

end ScriptLiteral
