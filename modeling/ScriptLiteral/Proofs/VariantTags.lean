/-
  Script literals — the tags of variants.

  A variant with a payload is a map from its name to the payload, and the literal of the map
  is the literal of the variant.  So the name is a key like any other.  As the only key it is
  written in front of the payload, unless it is `0`: then the map is indexed, and the literal
  is that of a list with one item.

  * `IsVariant d name p`: the datum `d` is a variant of this name with the payload `p`;
  * `IsVariant.literal_eq_map` is the literal of a variant, by that of its payload;
  * `tag?` reads the name back from a literal (`tag?_variantText`, `tag?_list`);
  * `literal_variantNamedZero`: a variant that is written without its name;
  * `literal_variant`: all others are written with it, and variants whose names are not the
    same but for their line breaks never have the same literal.
-/
import ScriptLiteral.Proofs.Composition
import ScriptLiteral.Proofs.PlainValue
import ScriptLiteral.Proofs.Reader

namespace ScriptLiteral

/-! ## Maps with one entry -/

theorem OrderedMap.isIndexed_singleton {α : Type} (k : String) (v : α) :
    (singleton k v).isIndexed = decide (k = "0") := by
  have hzero : positionKey 0 = "0" := by decide
  rw [Bool.eq_iff_iff, isIndexed_iff, decide_eq_true_iff, ← hzero]
  show [k] = [positionKey 0] ↔ _
  simp

namespace Datum

open Literal Value

/-- The datum is a variant of this name with this payload.  The items of a tuple variant
    make a sequence, the fields of a record variant a record. -/
inductive IsVariant : Datum → String → Datum → Prop where
  | wrapper (type name : String) (d : Datum) : IsVariant (.wrapperVariant type name d) name d
  | tuple (type name : String) (items : List Datum) :
      IsVariant (.tupleVariant type name items) name (.sequence items)
  | record (type name inner : String) (fields : List (String × Option Datum)) :
      IsVariant (.recordVariant type name fields) name (.record inner fields)

/-- A payload under a name, as an object literal. -/
def variantText (name payload : String) : String :=
  "\x7b" ++ key name ++ ": " ++ payload ++ "\x7d"

section
variable {d p : Datum} {name : String}

theorem IsVariant.toValue_eq (h : d.IsVariant name p) :
    d.toValue = p.toValue.map (tagged name) := by
  cases h with
  | wrapper type name p =>
    rw [toValue]
    cases p.toValue <;> rfl
  | tuple type name items =>
    rw [toValue, toValue]
    cases itemValues items <;> rfl
  | record type name inner fields =>
    rw [toValue, toValue]
    cases insertFields .empty fields <;> rfl

theorem literal_tagged (name : String) (v : Value) :
    (tagged name v).literal =
      v.literal.map fun t => if name = "0" then "[" ++ t ++ "]" else variantText name t := by
  have hvalues : (OrderedMap.singleton name v).values = [v] := rfl
  have hentries : (OrderedMap.singleton name v).entries = [(name, v)] := rfl
  rw [tagged, literal_map, OrderedMap.isIndexed_singleton, hvalues, hentries,
    mapM_singleton_enclosed, mapM_singleton_enclosed, entryLiteral]
  by_cases hname : name = "0"
  · simp [hname]
  · cases v.literal <;> simp [Except.map, variantText, hname, String.append_assoc]

theorem IsVariant.literal_eq_map (h : d.IsVariant name p) :
    d.literal =
      p.literal.map fun t => if name = "0" then "[" ++ t ++ "]" else variantText name t := by
  rw [Datum.literal, Datum.literal, h.toValue_eq]
  cases p.toValue with
  | error f => rfl
  | ok v =>
    show (tagged name v).literal.mapError LiteralError.fault =
      (v.literal.mapError LiteralError.fault).map _
    rw [literal_tagged]
    cases v.literal <;> rfl

/-! ## Reading a tag back -/

/-- The name that an object literal has in front of its first value. -/
def tag? (literal : String) : Option String :=
  match literal.toList with
  | '\x7b' :: rest => (Term.readKey rest).map (·.1)
  | _ => none

/-- The name is read back but for its line breaks, whatever the payload. -/
theorem tag?_variantText (name t : String) : tag? (variantText name t) = some (foldText name) := by
  have htext : (variantText name t).toList =
      '\x7b' :: (Term.keyChars (foldText name) ++ ':' :: ' ' :: (t.toList ++ ['\x7d'])) := by
    simp [variantText, ← Term.toList_key_eq]
  have hcolon : ∀ c, (':' :: ' ' :: (t.toList ++ ['\x7d'])).head? = some c →
      isKeyPart c = false := by
    rintro c ⟨⟩
    rfl
  rw [tag?, htext]
  show (Term.readKey _).map _ = _
  rw [Term.readKey_keyChars _ hcolon]
  rfl

theorem tag?_list (t : String) : tag? ("[" ++ t ++ "]") = none := by
  have htext : ("[" ++ t ++ "]").toList = '[' :: (t.toList ++ [']']) := by simp
  simp [tag?, htext]

/-! ## Variants -/

/-- A variant whose name is a number. -/
def variantNamedZero : Datum := .wrapperVariant "Shape" "0" (.bool true)

/-- **A variant can be written without its name**: this one has the literal of a list. -/
theorem literal_variantNamedZero : variantNamedZero.IsVariant "0" (.bool true) ∧
    (Datum.bool true).literal = .ok "true" ∧
      variantNamedZero.literal = .ok "[true]" ∧
        variantNamedZero.literal ≠ .ok (variantText "0" "true") ∧
          variantNamedZero.literal = (Datum.sequence [.bool true]).literal := by
  have hliteral : variantNamedZero.literal = .ok "[true]" := by rfl
  refine ⟨.wrapper "Shape" "0" (.bool true), by rfl, hliteral, ?_, by rfl⟩
  rw [hliteral]
  decide

/-- **The literal of a variant has the name in front of the literal of the payload**, by
    the rule of keys, unless the name is `0`.

    If the payload has a value, both have literals.  The name is read back from the literal
    of the variant but for its line breaks; a variant named `0` is written as a list of the
    payload, from which no name is read.  Variants whose names differ in more than line
    breaks have different literals. -/
theorem literal_variant (h : d.IsVariant name p) {v : Value} (hv : p.toValue = .ok v) :
    (∃ t, p.literal = .ok t ∧
      d.literal = .ok (if name = "0" then "[" ++ t ++ "]" else variantText name t)) ∧
      (∀ t, d.literal = .ok t → tag? t = if name = "0" then none else some (foldText name)) ∧
      ∀ {d' p' : Datum} {name' : String} {v' : Value}, d'.IsVariant name' p' →
        p'.toValue = .ok v' → foldText name ≠ foldText name' → d.literal ≠ d'.literal := by
  have hpayload : ∀ {p : Datum} {v : Value}, p.toValue = .ok v → ∃ t, p.literal = .ok t := by
    intro p v hv
    rw [Datum.literal, hv]
    exact ⟨_, congrArg (Except.mapError LiteralError.fault) (plain_toValue p v hv).literal_eq⟩
  have htag : ∀ {d p : Datum} {name t : String}, d.IsVariant name p → d.literal = .ok t →
      tag? t = if name = "0" then none else some (foldText name) := by
    intro d p name t h ht
    rw [h.literal_eq_map] at ht
    cases hp : p.literal with
    | error e =>
      rw [hp] at ht
      cases ht
    | ok s =>
      rw [hp] at ht
      rw [← Except.ok.inj ht]
      split
      · exact tag?_list s
      · exact tag?_variantText name s
  obtain ⟨t, ht⟩ := hpayload hv
  have hliteral : d.literal =
      .ok (if name = "0" then "[" ++ t ++ "]" else variantText name t) := by
    rw [h.literal_eq_map, ht]
    rfl
  refine ⟨⟨t, ht, hliteral⟩, fun t ht => htag h ht, ?_⟩
  intro d' p' name' v' h' hv' hne heq
  have htags := (htag h hliteral).symm.trans (htag h' (heq ▸ hliteral))
  -- of two names at most one is zero, and only from the other a name is read
  by_cases hname : name = "0"
  · by_cases hname' : name' = "0"
    · exact hne (by rw [hname, hname'])
    · simp [hname, hname'] at htags
  · by_cases hname' : name' = "0"
    · simp [hname, hname'] at htags
    · simp only [hname, hname', if_false, Option.some_inj] at htags
      exact hne htags

end

/-- The fields of a record variant; as a map they are indexed. -/
def indexedFields : List (String × Option Datum) := [("0", some (.bool true)), ("1", none)]

/-- A variant whose name is zero with a superfluous zero. -/
def variantNamedZeros : Datum := .recordVariant "Shape" "00" indexedFields

theorem literal_variant_zeros :
    variantNamedZeros.IsVariant "00" (.record "Fields" indexedFields) ∧
      variantNamedZero.IsVariant "0" (.bool true) ∧ foldText "00" ≠ foldText "0" ∧
        (∃ t, (Datum.record "Fields" indexedFields).literal = .ok t ∧
          variantNamedZeros.literal = .ok (variantText "00" t)) ∧
          variantNamedZeros.literal ≠ variantNamedZero.literal := by
  have hzeros : variantNamedZeros.IsVariant "00" (.record "Fields" indexedFields) :=
    .record "Shape" "00" "Fields" indexedFields
  have hzero : variantNamedZero.IsVariant "0" (.bool true) := .wrapper "Shape" "0" (.bool true)
  have hvalue : (Datum.record "Fields" indexedFields).toValue =
      .ok (.map ⟨[("0", .bool true)]⟩) := by rfl
  have hvalue' : (Datum.bool true).toValue = .ok (.bool true) := by rfl
  have hnames : foldText "00" ≠ foldText "0" := by decide
  obtain ⟨hliteral, -, hdifferent⟩ := literal_variant hzeros hvalue
  exact ⟨hzeros, hzero, hnames, hliteral, hdifferent hzero hvalue' hnames⟩

end Datum

end ScriptLiteral
