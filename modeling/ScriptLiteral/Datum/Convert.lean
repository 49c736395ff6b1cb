/-
  Script literals — self-describing data as values.

  Absent data and units are null, wrappers are what they wrap, sequences and
  tuples are lists, bytes a list of integers, records are maps of their fields.
  A unit variant is its name; any other variant is a map with one entry, from
  its name to its payload.

  A map is built from its calls.  A builder holds the entries built so far and a
  pending key.  A key call sets the pending key, whether or not there was one; a
  value call takes it and inserts an entry, and is a fault without it.  At the
  end a pending key leaves no trace.

  * `DatumFault` is what makes a datum impossible to convert;
  * `keyText` is the text of a key: a text as it is, an integer in decimal;
  * `MapBuilder.setKey`, `takeKey` and `insert` are the steps of the calls;
  * `Datum.toValue` stops at the first fault in the order of the calls.  A key is
    converted before it is judged, and a value without key is a fault before it
    is looked at.
-/
import ScriptLiteral.Datum.Basic
import ScriptLiteral.Decimal
import ScriptLiteral.Value

namespace ScriptLiteral

/-! ## Maps from calls -/

/-- A fault in a datum. -/
inductive DatumFault where
  /-- The datum said so itself. -/
  | reported (message : String)
  /-- A map key that is neither a text nor an integer. -/
  | unusableKey (typeName : String)
  /-- A value call without a key. -/
  | valueBeforeKey
deriving DecidableEq

/-- The message of a fault in a datum. -/
def DatumFault.message : DatumFault → String
  | reported message => message
  | unusableKey name => "map key must be a string or an integer, found " ++ name
  | valueBeforeKey => "serialize_value called before serialize_key"

/-- The text of a map key. -/
def keyText : Value → Except DatumFault String
  | .string s => .ok s
  | .integer i => .ok (Decimal.ofInt i.toInt).text
  | v => .error (.unusableKey v.typeName)

/-- A map under construction. -/
structure MapBuilder where
  entries : OrderedMap Value
  pending : Option String

namespace MapBuilder

/-- No entries and no key. -/
def empty : MapBuilder := ⟨.empty, none⟩

/-- Set the pending key from its value. -/
def setKey (b : MapBuilder) (key : Value) : Except DatumFault MapBuilder :=
  match keyText key with
  | .ok k => .ok { b with pending := some k }
  | .error fault => .error fault

/-- Take the pending key. -/
def takeKey (b : MapBuilder) : Except DatumFault (String × MapBuilder) :=
  match b.pending with
  | some k => .ok (k, { b with pending := none })
  | none => .error .valueBeforeKey

/-- Insert an entry. -/
def insert (b : MapBuilder) (k : String) (v : Value) : MapBuilder :=
  { b with entries := b.entries.insert k v }

end MapBuilder

/-! ## Values of data -/

namespace Datum

/-- A variant with a payload: a map from its name to the payload. -/
def tagged (variant : String) (payload : Value) : Value := .map (.singleton variant payload)

mutual

/-- The value of a datum, or its first fault. -/
def toValue : Datum → Except DatumFault Value
  | bool b => return .bool b
  | integer i => return .ofMachineInt i
  | single s => return .ofSingle s
  | double d => return .float d
  | char c => return .ofChar c
  | text s => return .string s
  | display s => return .string s
  | bytes bs => return .list (bs.map fun b => .ofMachineInt (.ofUInt8 b))
  | absent => return .null
  | present d => toValue d
  | unit => return .null
  | unitRecord _ => return .null
  | unitVariant _ variant => return .string variant
  | wrapper _ d => toValue d
  | wrapperVariant _ variant d => do return tagged variant (← toValue d)
  | sequence items => do return .list (← itemValues items)
  | tuple items => do return .list (← itemValues items)
  | namedTuple _ items => do return .list (← itemValues items)
  | tupleVariant _ variant items => do return tagged variant (.list (← itemValues items))
  | record _ fields => do return .map (← insertFields .empty fields)
  | recordVariant _ variant fields => do
    return tagged variant (.map (← insertFields .empty fields))
  | map calls => do return .map (← runCalls .empty calls).entries
  | failure message => throw (.reported message)

/-- The values of items, in order. -/
def itemValues : List Datum → Except DatumFault (List Value)
  | [] => return []
  | d :: ds => do
    let v ← toValue d
    let vs ← itemValues ds
    return v :: vs

/-- Insert the fields that are not skipped, in order. -/
def insertFields (m : OrderedMap Value) :
    List (String × Option Datum) → Except DatumFault (OrderedMap Value)
  | [] => return m
  | (_, none) :: rest => insertFields m rest
  | (name, some d) :: rest => do
    let v ← toValue d
    insertFields (m.insert name v) rest

/-- Follow the calls of a map. -/
def runCalls (b : MapBuilder) : List (MapCall Datum) → Except DatumFault MapBuilder
  | [] => return b
  | .key k :: rest => do
    let b ← b.setKey (← toValue k)
    runCalls b rest
  | .value v :: rest => do
    let (k, b) ← b.takeKey
    let v ← toValue v
    runCalls (b.insert k v) rest
  | .entry k v :: rest => do
    let b ← b.setKey (← toValue k)
    let (k, b) ← b.takeKey
    let v ← toValue v
    runCalls (b.insert k v) rest

end

/-! ## Calls of a map -/

theorem runCalls_append (b : MapBuilder) (before after : List (MapCall Datum)) :
    runCalls b (before ++ after) = runCalls b before >>= fun b' => runCalls b' after := by
  induction before generalizing b with
  | nil => rw [runCalls]; rfl
  | cons c before ih => cases c <;> simp only [List.cons_append, runCalls, ih, bind_assoc]

theorem runCalls_entry_cons (b : MapBuilder) (d e : Datum) (rest : List (MapCall Datum)) :
    runCalls b (.entry d e :: rest) = runCalls b (.key d :: .value e :: rest) := by
  simp only [runCalls]

theorem runCalls_text_entry_cons (b : MapBuilder) (k : String) (d : Datum)
    (rest : List (MapCall Datum)) :
    runCalls b (.entry (.text k) d :: rest) =
      d.toValue >>= fun v => runCalls ⟨b.entries.insert k v, none⟩ rest := by
  have hset : b.setKey (.string k) = pure { b with pending := some k } := rfl
  have htake : ({ b with pending := some k } : MapBuilder).takeKey =
      pure (k, ⟨b.entries, none⟩) := rfl
  simp only [runCalls, toValue, pure_bind, hset, htake]
  rfl

end Datum

end ScriptLiteral
