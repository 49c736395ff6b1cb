/-
  Script literals — dynamic values.

  `Value` is the tree that is written as a literal: scalars, lists, maps in
  insertion order, host objects, and resources that have no literal.

  * `typeName`, `isNull` and `string?` describe a value;
  * `beq` is equality of values (`==`): numbers compare as numbers, maps entry by
    entry in order, objects by identity;
  * `ofInt` is the value of an integer: an integer value within 64 signed bits,
    and the double nearest to it beyond them.  The conversions of other native
    data are a constructor each, but for singles, characters and optional data.
-/
import ScriptLiteral.Double.Basic
import ScriptLiteral.HostObject
import ScriptLiteral.MachineInt
import ScriptLiteral.OrderedMap

namespace ScriptLiteral

/-- A dynamic value. -/
inductive Value where
  | null
  | bool (b : Bool)
  | integer (i : Int64)
  | float (d : Double)
  | string (s : String)
  | list (items : List Value)
  | map (m : OrderedMap Value)
  | object (o : HostObject Value)
  /-- A resource of the host, such as an open file; it has no literal. -/
  | resource (typeName : String)

namespace Value

/-! ## Descriptions -/

/-- The name of a value's type in messages. -/
def typeName : Value → String
  | null => "null"
  | bool _ => "boolean"
  | integer _ => "integer"
  | float _ => "float"
  | string _ => "string"
  | list _ => "list"
  | map _ => "map"
  | object o => o.typeName
  | resource name => name

/-- Whether the value is null. -/
def isNull : Value → Bool
  | null => true
  | _ => false

/-- The text of a string value. -/
def string? : Value → Option String
  | string s => some s
  | _ => none

/-! ## Equality -/

mutual

/-- Equality of values.  Different kinds are never equal. -/
def beq : Value → Value → Bool
  | null, null => true
  | bool a, bool b => a == b
  | integer i, integer j => i == j
  | float a, float b => a.numEq b
  | string s, string t => s == t
  | list xs, list ys => beqItems xs ys
  | map ⟨xs⟩, map ⟨ys⟩ => beqEntries xs ys
  | object o, object p => o.identity == p.identity
  | resource s, resource t => s == t
  | _, _ => false

/-- Equality of lists, item by item. -/
def beqItems : List Value → List Value → Bool
  | [], [] => true
  | x :: xs, y :: ys => beq x y && beqItems xs ys
  | _, _ => false

/-- Equality of the entries of maps, in order. -/
def beqEntries : List (String × Value) → List (String × Value) → Bool
  | [], [] => true
  | (k, x) :: xs, (l, y) :: ys => k == l && beq x y && beqEntries xs ys
  | _, _ => false

end

instance : BEq Value := ⟨beq⟩

/-! ## Values of native data -/

/-- The value of an integer: an integer value if 64 signed bits hold it, else
    the nearest double. -/
def ofInt (i : Int) : Value :=
  if Int64.minValue.toInt ≤ i ∧ i ≤ Int64.maxValue.toInt then integer (Int64.ofInt i)
  else float (Double.ofInt i)

/-- The value of a machine integer of any type. -/
def ofMachineInt (m : MachineInt) : Value := ofInt m.val

/-- The value of a single-precision number. -/
def ofSingle (s : Single) : Value := float s.toDouble

/-- The value of a character. -/
def ofChar (c : Char) : Value := string c.toString

/-- The value of an optional datum. -/
def ofOption : Option Value → Value
  | none => null
  | some v => v

theorem ofInt_toInt (i : Int64) : ofInt i.toInt = integer i := by
  have h₁ := i.minValue_le_toInt
  have h₂ := i.toInt_le
  simp only [ofInt, h₁, h₂, and_self, if_true, Int64.ofInt_toInt]

end Value

end ScriptLiteral
