/-
  Script literals — the two ways from a JSON tree to its value.

  A tree can be converted as it stands (`Json.toValue`), or describe itself and be
  converted as a datum (`Json.toDatum`, `Datum.toValue`).

  * `Number.toValue_toDatum`: the ways agree on every number, at either side of
    the greatest signed word;
  * `runCalls_memberCalls`: what the members do to a map under construction; no key is
    pending in between;
  * `toValue_toDatum`: the ways agree on every tree;
  * `literal_toDatum`: so the literal of a JSON text is that of the datum of its
    tree.
-/
import Mathlib
import ScriptLiteral.Literal.Sources

namespace ScriptLiteral

/-! ## Numbers -/

theorem Value.ofInt_natCast_of_le {n : Nat} (h : (n : Int) ≤ Int64.maxValue.toInt) :
    Value.ofInt n = .integer (Int64.ofInt n) := by
  have hmin : Int64.minValue.toInt ≤ (n : Int) := by
    have : Int64.minValue.toInt ≤ 0 := by decide
    omega
  rw [Value.ofInt, if_pos ⟨hmin, h⟩]

/-- The cascade over a number finds the value of the word or double that it is. -/
theorem Json.Number.toValue_toDatum (n : Json.Number) : n.toDatum.toValue = .ok n.toValue := by
  cases n with
  | unsigned n =>
    show Except.ok (Value.ofInt n.toNat) = _
    rw [Json.Number.toValue, Json.Number.signed?]
    by_cases h : (n.toNat : Int) ≤ Int64.maxValue.toInt
    · rw [if_pos h, Value.ofInt_natCast_of_le h]
    · rw [if_neg h]; rfl
  | signed i =>
    show Except.ok (Value.ofInt i.toInt) = _
    rw [Value.ofInt_toInt]; rfl
  | float d => rfl

namespace Json

/-! ## Trees -/

mutual

/-- **Both ways give the same value.**  What a JSON tree says of itself has a
    value, and it is the value of the tree. -/
theorem toValue_toDatum : ∀ j : Json, j.toDatum.toValue = .ok j.toValue
  | null => rfl
  | bool _ => rfl
  | number n => n.toValue_toDatum
  | string _ => rfl
  | array items => by
    rw [toDatum, Datum.toValue, itemValues_itemData items]
    rfl
  | object ⟨members⟩ => by
    rw [toDatum, Datum.toValue, MapBuilder.empty, runCalls_memberCalls members .empty]
    rfl

theorem itemValues_itemData : ∀ js : List Json,
    Datum.itemValues (itemData js) = .ok (itemValues js)
  | [] => rfl
  | j :: js => by
    rw [itemData, Datum.itemValues, toValue_toDatum j, itemValues_itemData js]
    rfl

theorem runCalls_memberCalls : ∀ (members : List (String × Json)) (m : OrderedMap Value),
    Datum.runCalls ⟨m, none⟩ (memberCalls members) = .ok ⟨m.extend (memberValues members), none⟩
  | [], _ => rfl
  | (k, j) :: rest, m => by
    rw [memberCalls, Datum.runCalls_text_entry_cons, toValue_toDatum j]
    exact runCalls_memberCalls rest (m.insert k j.toValue)

end

/-- **The literal of a JSON text is the literal of its tree as a datum.** -/
theorem literal_toDatum (text : String) (j : Json) (h : parse text = .ok j) :
    j.toDatum.toValue = .ok j.toValue ∧ j.toDatum.literal = literalOfText text := by
  refine ⟨toValue_toDatum j, ?_⟩
  rw [Datum.literal, toValue_toDatum, literalOfText, h]

/-- An array of an object that holds the greatest unsigned and the least signed
    word, an object without members, and a truth value. -/
def words : Json :=
  .array [.object ⟨[("n", .array [.number (.unsigned 18446744073709551615),
      .number (.signed (-9223372036854775808))])]⟩, .object ⟨[]⟩, .bool true]

/-- The text of `words`. -/
def wordsText : String :=
  "[\x7b\"n\":[18446744073709551615,-9223372036854775808]\x7d,\x7b\x7d,true]"

theorem literal_toDatum_words : parse wordsText = .ok words ∧
    words.toDatum.toValue = .ok words.toValue ∧
      words.toDatum.literal = literalOfText wordsText := by
  have h : parse wordsText = .ok words := by cbv
  exact ⟨h, literal_toDatum wordsText words h⟩

end Json

end ScriptLiteral
