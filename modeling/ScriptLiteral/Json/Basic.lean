/-
  Script literals — trees of interchange data (JSON) and their values.

  A number is an unsigned or a negative signed 64-bit integer, or a double.  An
  object is a map in insertion order.  In the value of a tree, an integer that 64
  signed bits hold is an integer value, a greater one the double nearest to it;
  the rest of the tree keeps its shape.

  * `Number.signed?`, `Number.unsigned?` and `Number.double?` look at a number as
    a signed word, as an unsigned word and as a double;
  * `Number.toValue` is the first of these that there is, and `toValue` the value
    of a tree.
-/
import ScriptLiteral.Value

namespace ScriptLiteral

/-! ## Trees -/

/-- A JSON number as it is read. -/
inductive Json.Number where
  | unsigned (n : UInt64)
  | signed (i : Int64)
  | float (d : Double)
deriving DecidableEq

/-- A JSON tree. -/
inductive Json where
  | null
  | bool (b : Bool)
  | number (n : Json.Number)
  | string (s : String)
  | array (items : List Json)
  | object (members : OrderedMap Json)

/-! ## Values of trees -/

namespace Json

/-- The number as a signed 64-bit word, if it is one. -/
def Number.signed? : Number → Option Int64
  | unsigned n => if n.toNat ≤ Int64.maxValue.toInt then some (Int64.ofInt n.toNat) else none
  | signed i => some i
  | float _ => none

/-- The number as an unsigned 64-bit word, if it is read as one. -/
def Number.unsigned? : Number → Option UInt64
  | unsigned n => some n
  | signed _ => none
  | float _ => none

/-- The number as a double; for an integer the nearest one. -/
def Number.double? : Number → Option Double
  | unsigned n => some (.ofInt n.toNat)
  | signed i => some (.ofInt i.toInt)
  | float d => some d

/-- The value of a number: a signed word, else an unsigned word, else a double,
    and null if it were none of them. -/
def Number.toValue (n : Number) : Value :=
  match n.signed? with
  | some i => .integer i
  | none =>
    match n.unsigned? with
    | some u => .ofInt u.toNat
    | none =>
      match n.double? with
      | some d => .float d
      | none => .null

mutual

/-- The value of a JSON tree. -/
def toValue : Json → Value
  | null => .null
  | bool b => .bool b
  | number n => n.toValue
  | string s => .string s
  | array items => .list (itemValues items)
  | object ⟨members⟩ => .map (.ofList (memberValues members))

/-- The values of items. -/
def itemValues : List Json → List Value
  | [] => []
  | j :: js => toValue j :: itemValues js

/-- The values of members, under their keys. -/
def memberValues : List (String × Json) → List (String × Value)
  | [] => []
  | (k, j) :: rest => (k, toValue j) :: memberValues rest

end

theorem memberValues_eq_map (members : List (String × Json)) :
    memberValues members = members.map fun m => (m.1, m.2.toValue) := by
  induction members with
  | nil => rfl
  | cons m members ih => simp only [memberValues, List.map_cons, ih]

end Json

end ScriptLiteral
