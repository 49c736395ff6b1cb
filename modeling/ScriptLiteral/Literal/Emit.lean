/-
  Script literals — the literal of a value.

  * scalars are `null`, `true`, `false`, plain numbers and string literals;
  * a list is `[a, b, c]`, and so is an indexed map, whose keys say no more than
    the positions of its values;
  * any other map is an object literal, entries in order;
  * an object is what it resolves to: a substitute or export is written as any
    value, save that a substitute which is a text is source text; a rendered
    text is source text; an instant is a date of its milliseconds;
  * a resource and an object without capabilities are faults.

  `emit` writes a value to a draft; `emit_object` and `emit_map_of_isIndexed` are
  its rules for objects and indexed maps.  `Value.emission` is the outcome of
  writing a value to the empty draft, with all events, and `Value.literal` the
  outcome alone.
-/
import ScriptLiteral.Literal.Draft
import ScriptLiteral.Literal.Quoted
import ScriptLiteral.Double.Shortest
import ScriptLiteral.OrderedMap
import ScriptLiteral.Value

namespace ScriptLiteral

namespace Literal

open Emit

/-! ## Texts of scalars -/

/-- The literal of a truth value. -/
def ofBool (b : Bool) : String := if b then "true" else "false"

/-- The literal of an integer. -/
def ofInteger (i : Int64) : String := (Decimal.ofInt i.toInt).text

/-- The literal of a point in time. -/
def ofTimestamp (t : Timestamp) : String := "new Date(" ++ t.milliseconds.text ++ ")"

/-! ## Writing -/

mutual

/-- Write a value. -/
def emit : Value → Emit Unit
  | .null => put "null"
  | .bool b => put (ofBool b)
  | .integer i => put (ofInteger i)
  | .float d => put d.text
  | .string s => put (quote s)
  | .list items => do
    put "["
    emitItems false items
    put "]"
  | .map ⟨entries⟩ =>
    if (OrderedMap.mk entries).isIndexed then do
      put "["
      emitValues false entries
      put "]"
    else do
      put "\x7b"
      emitEntries false entries
      put "\x7d"
  | .object { typeName, substitute := some v, .. } => do
    report (.resolving typeName .customSerializable)
    match v with
    | .string source => put source
    | v => emit v
  | .object { typeName, exported := some v, .. } => do
    report (.resolving typeName .mapExportable)
    emit v
  | .object { typeName, rendered := some source, .. } => do
    report (.resolving typeName .textRenderable)
    put source
  | .object { typeName, instant := some t, .. } => do
    report (.resolving typeName .temporalValue)
    put (ofTimestamp t)
  | .object o => throw (.unsupportedObject o.typeName)
  | .resource typeName => throw (.unsupportedType typeName)

/-- Write items with a comma before each, the first excepted unless `more`. -/
def emitItems (more : Bool) : List Value → Emit Unit
  | [] => pure ()
  | v :: vs => do
    if more then put ", "
    emit v
    emitItems true vs

/-- Write the values of entries like the items of a list. -/
def emitValues (more : Bool) : List (String × Value) → Emit Unit
  | [] => pure ()
  | (_, v) :: rest => do
    if more then put ", "
    emit v
    emitValues true rest

/-- Write entries with a comma before each, the first excepted unless `more`. -/
def emitEntries (more : Bool) : List (String × Value) → Emit Unit
  | [] => pure ()
  | (k, v) :: rest => do
    if more then put ", "
    put (key k)
    put ": "
    emit v
    emitEntries true rest

end

/-- Write what an object resolves to.  A substitute that is a text is source
    text. -/
def emitResolution : Resolution Value → Emit Unit
  | .substitute (.string source) => put source
  | .substitute v => emit v
  | .exported v => emit v
  | .rendered source => put source
  | .instant t => put (ofTimestamp t)

theorem emit_object (o : HostObject Value) :
    emit (.object o) =
      match o.resolution? with
      | some r => do
        report (.resolving o.typeName r.capability)
        emitResolution r
      | none => throw (.unsupportedObject o.typeName) := by
  cases o using HostObject.firstCases with
  | substitute _ _ _ v => cases v <;> rfl
  | exported | rendered | instant | without => rfl

theorem emitValues_eq (more : Bool) (entries : List (String × Value)) :
    emitValues more entries = emitItems more (entries.map (·.2)) := by
  induction entries generalizing more with
  | nil => rfl
  | cons e rest ih => simp only [emitValues, List.map_cons, emitItems, ih]

/-- An indexed map is written as the list of its values. -/
theorem emit_map_of_isIndexed {m : OrderedMap Value} (h : m.isIndexed = true) :
    emit (.map m) = emit (.list m.values) := by
  obtain ⟨entries⟩ := m
  simp only [emit, h, if_true, emitValues_eq, OrderedMap.values]

end Literal

/-! ## Outcomes -/

/-- The outcome of writing a value: its literal or the first fault, and all
    events in order. -/
structure Emission where
  result : Except Fault String
  events : List Event

namespace Value

open Literal

/-- Write a value and collect what is reported.  A failure is reported last. -/
def emission (v : Value) : Emission :=
  match (emit v).run .empty with
  | .ok () draft => ⟨.ok draft.text, draft.events.toList⟩
  | .error fault draft => ⟨.error fault, draft.events.toList ++ [.failed fault]⟩

/-- The literal of a value, or the first fault met while writing it. -/
def literal (v : Value) : Except Fault String := v.emission.result

end Value

end ScriptLiteral
