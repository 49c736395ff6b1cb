/-
  Script literals — self-describing data.

  A datum is what a native value says of itself: a scalar, an optional or
  wrapped datum, a sequence, a record with named fields, a variant of a sum, or
  a map given by calls.  A map is told its keys and values one at a time, which
  need not come in pairs.

  * `Datum` is the tree, `MapCall` a call of a map;
  * `Json.toDatum` is what a JSON tree says of itself.
-/
import ScriptLiteral.Double.Basic
import ScriptLiteral.Json.Basic
import ScriptLiteral.MachineInt

namespace ScriptLiteral

/-- One call of a map: the next key, the next value, or both at once. -/
inductive MapCall (α : Type) where
  | key (k : α)
  | value (v : α)
  | entry (k v : α)

/-- A datum that describes itself.  A variant belongs to a sum type; the names of
    types are part of the description, but only those of variants, fields and
    keys show in the value. -/
inductive Datum where
  | bool (b : Bool)
  | integer (i : MachineInt)
  | single (s : Single)
  | double (d : Double)
  | char (c : Char)
  | text (s : String)
  /-- A text produced by formatting. -/
  | display (s : String)
  | bytes (bs : List UInt8)
  /-- An optional datum that is absent. -/
  | absent
  /-- An optional datum that is present. -/
  | present (d : Datum)
  | unit
  /-- A record without fields. -/
  | unitRecord (name : String)
  /-- A variant without payload. -/
  | unitVariant (name variant : String)
  /-- A named type around one datum. -/
  | wrapper (name : String) (d : Datum)
  /-- A variant around one datum. -/
  | wrapperVariant (name variant : String) (d : Datum)
  | sequence (items : List Datum)
  | tuple (items : List Datum)
  | namedTuple (name : String) (items : List Datum)
  | tupleVariant (name variant : String) (items : List Datum)
  /-- Named fields; a field without datum is skipped. -/
  | record (name : String) (fields : List (String × Option Datum))
  | recordVariant (name variant : String) (fields : List (String × Option Datum))
  | map (calls : List (MapCall Datum))
  /-- A datum that cannot be described, with the reason. -/
  | failure (message : String)

/-! ## JSON trees as data -/

namespace Json

/-- What a number says of itself: an integer that is not negative is unsigned. -/
def Number.toDatum : Number → Datum
  | unsigned n => .integer (.ofUInt64 n)
  | signed i => .integer (.ofInt64 i)
  | float d => .double d

mutual

/-- What a JSON tree says of itself. -/
def toDatum : Json → Datum
  | null => .unit
  | bool b => .bool b
  | number n => n.toDatum
  | string s => .text s
  | array items => .sequence (itemData items)
  | object ⟨members⟩ => .map (memberCalls members)

/-- What items say of themselves. -/
def itemData : List Json → List Datum
  | [] => []
  | j :: js => toDatum j :: itemData js

/-- The calls of an object: one entry per member. -/
def memberCalls : List (String × Json) → List (MapCall Datum)
  | [] => []
  | (k, j) :: rest => .entry (.text k) (toDatum j) :: memberCalls rest

end

end Json

end ScriptLiteral
