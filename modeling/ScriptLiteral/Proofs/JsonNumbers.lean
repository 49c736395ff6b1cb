/-
  Script literals — no number of a JSON text is lost.

  A numeral that is in range is an integer or a finite double: a significand is a
  64-bit word, dividing by powers of ten keeps a double finite, and a product that is
  not finite is out of range.

  * `isFinite_scale` and `isFiniteNumber_number`: the number of a numeral;
  * `Document.at?` is what a document says at a place, and `Document.at?_value` says
    that its value has the value of that there;
  * `Term.Finite` are the terms without NaN and infinity, and `Plain.finite_canon`
    says when the term of a value is one;
  * `numbers_kept`: what a JSON text says of numbers and of null is what its value
    and its literal say.
-/
import ScriptLiteral.Proofs.JsonAcceptance
import ScriptLiteral.Proofs.ReadBack
import ScriptLiteral.Proofs.Rounding
import ScriptLiteral.Proofs.Trace

namespace ScriptLiteral

/-- An integer or a finite double. -/
def Value.IsFiniteNumber (v : Value) : Prop :=
  (∃ i, v = .integer i) ∨ ∃ d, v = .float d ∧ d.IsFinite

theorem Value.isFiniteNumber_ofInt {i : Int} (h : i.natAbs < UInt64.size) :
    (ofInt i).IsFiniteNumber := by
  unfold ofInt
  split
  · exact .inl ⟨_, rfl⟩
  · exact .inr ⟨_, rfl, Double.isFinite_nearest_word _ h⟩

namespace Json

/-! ## Scaling -/

theorem unity_le_quanta_powerOfTen (k : Nat) : Double.unity ≤ (powerOfTen k).quanta :=
  Double.unity_le_quanta_nearest Nat.one_pos (tenTo_pos k)

theorem isFinite_divideOut {d : Double} (h : d.IsFinite) (n : Nat) : (divideOut d n).IsFinite := by
  induction n generalizing d with
  | zero => exact h
  | succ n ih =>
    unfold divideOut
    split
    · exact h
    · exact ih (h.div (unity_le_quanta_powerOfTen greatestPower))

/-- **A scaled significand is finite**, whatever the exponent. -/
theorem isFinite_scale {significand : Nat} {exponent : Int} {d : Double}
    (hs : significand < UInt64.size) (h : scale significand exponent = some d) : d.IsFinite := by
  have hword : (Double.nearest false significand 1).IsFinite :=
    Double.isFinite_nearest_word false hs
  unfold scale at h
  dsimp only at h
  split at h
  · obtain rfl := Option.some.inj h
    exact (isFinite_divideOut hword _).div (unity_le_quanta_powerOfTen _)
  · split at h
    · split at h
      · next hproduct =>
        obtain rfl := Option.some.inj h
        exact hproduct
      · nomatch h
    · split at h
      · obtain rfl := Option.some.inj h
        exact hword
      · nomatch h

/-! ## Numbers -/

theorem isFiniteNumber_scaledNumber {negative : Bool} {significand : Nat} {exponent : Int}
    {n : Number} (hs : significand < UInt64.size)
    (h : scaledNumber negative significand exponent = .ok n) : n.toValue.IsFiniteNumber := by
  unfold scaledNumber at h
  split at h
  · next d hd =>
    cases h
    exact .inr ⟨_, rfl, (isFinite_scale hs hd).withSign negative⟩
  · nomatch h

theorem isFiniteNumber_integerNumber {negative : Bool} {n : Nat} (hn : n < UInt64.size) :
    (integerNumber negative n).toValue.IsFiniteNumber := by
  by_cases hzero : negative = true ∧ n = 0
  · -- a negative zero is a double
    obtain ⟨rfl, rfl⟩ := hzero
    exact .inr ⟨_, rfl, Double.isFinite_nearest_word true hn⟩
  · have hpos : negative = true → 0 < n := fun hneg =>
      Nat.pos_of_ne_zero fun hn => hzero ⟨hneg, hn⟩
    rw [toValue_integerNumber (Nat.le_of_lt_succ hn) hpos]
    exact Value.isFiniteNumber_ofInt (by split <;> omega)

/-- **The number of a numeral is an integer or a finite double.** -/
theorem isFiniteNumber_number {numeral : Numeral} {n : Number} (h : numeral.number = .ok n) :
    n.toValue.IsFiniteNumber := by
  have hsize : UInt64.size = significandBound + 1 := rfl
  have hwhole := absorb_le (Nat.zero_le significandBound) numeral.whole
  have hsignificand := absorb_le hwhole numeral.fraction
  unfold Numeral.number at h
  dsimp only at h
  split at h
  · cases h
    exact isFiniteNumber_integerNumber (by omega)
  · split at h
    · exact isFiniteNumber_scaledNumber (by omega) h
    · split at h
      · exact isFiniteNumber_scaledNumber (by omega) h
      · split at h
        · cases h
          exact .inr ⟨_, rfl, Double.isFinite_zero _⟩
        · nomatch h

theorem Token.isFiniteNumber_toValue (t : Token) : t.number.toValue.IsFiniteNumber :=
  isFiniteNumber_number t.inRange

/-! ## Places in documents -/

namespace Document

/-- What a document keeps of its parts, in order: all items of an array, and of the
    members of an object, for each key at its first position, the last value. -/
def parts : Document → List Document
  | array items => items
  | object members => (OrderedMap.ofList members).values
  | _ => []

/-- What a document says at a place. -/
def at? : Document → Place → Option Document
  | d, [] => some d
  | d, i :: p => d.parts[i]?.bind (at? · p)

theorem itemValues_eq_map (items : List Document) : itemValues items = items.map value := by
  induction items with
  | nil => rfl
  | cons d items ih => rw [itemValues, ih, List.map_cons]

theorem memberValues_eq_map (members : List (String × Document)) :
    memberValues members = members.map fun m => (m.1, m.2.value) := by
  induction members with
  | nil => rfl
  | cons m members ih => rw [memberValues, ih, List.map_cons]

theorem parts_value (d : Document) : d.value.parts = d.parts.map value := by
  cases d with
  | array items => exact itemValues_eq_map items
  | object members =>
    have h := OrderedMap.mapValues_ofList value members
    rw [← memberValues_eq_map] at h
    show (OrderedMap.ofList (memberValues members)).values = _
    rw [← h]
    simp [OrderedMap.values, OrderedMap.mapValues, parts]
  | number t =>
    rcases t.isFiniteNumber_toValue with ⟨i, h⟩ | ⟨x, h, -⟩
    · rw [value, h]; rfl
    · rw [value, h]; rfl
  | _ => rfl

/-- **The value of a document has, at each place, the value of what the document
    says there.** -/
theorem at?_value (d : Document) (p : Place) : d.value.at? p = (d.at? p).map value := by
  induction p generalizing d with
  | nil => rfl
  | cons i p ih =>
    rw [Value.at?, at?, parts_value, List.getElem?_map]
    cases d.parts[i]? with
    | none => rfl
    | some e => exact ih e

theorem value_eq_null_iff {d : Document} : d.value = .null ↔ d = .null := by
  constructor
  · intro h
    cases d with
    | null => rfl
    | number t =>
      rw [value] at h
      rcases t.isFiniteNumber_toValue with ⟨i, hi⟩ | ⟨x, hx, -⟩
      · rw [h] at hi; nomatch hi
      · rw [h] at hx; nomatch hx
    | _ => nomatch h
  · rintro rfl
    rfl

theorem isFinite_of_value_eq {d : Document} {x : Double} (h : d.value = .float x) :
    x.IsFinite := by
  cases d with
  | number t =>
    rw [value] at h
    rcases t.isFiniteNumber_toValue with ⟨i, hi⟩ | ⟨y, hy, hfinite⟩
    · rw [h] at hi; nomatch hi
    · rw [h] at hy
      obtain rfl := Value.float.inj hy
      exact hfinite
  | _ => nomatch h

end Document

end Json

/-! ## Terms without NaN and infinity -/

/-- Neither NaN nor an infinity stands in the term, however deep. -/
inductive Term.Finite : Term → Prop where
  | null : Finite .null
  | bool (b : Bool) : Finite (.bool b)
  | number (text : String) : Finite (.number text)
  | string (s : String) : Finite (.string s)
  | list {items : List Term} (h : ∀ t ∈ items, Finite t) : Finite (.list items)
  | record {entries : List (String × Term)} (h : ∀ e ∈ entries, Finite e.2) :
    Finite (.record entries)
  | date (milliseconds : ℚ) : Finite (.date milliseconds)
  | verbatim (source : String) : Finite (.verbatim source)

namespace Value

/-- The doubles in a value are finite. -/
def FloatsFinite (v : Value) : Prop := ∀ p x, v.at? p = some (.float x) → x.IsFinite

theorem FloatsFinite.part {v w : Value} (h : v.FloatsFinite) (hw : w ∈ v.parts) :
    w.FloatsFinite := by
  intro p x hx
  obtain ⟨i, hi⟩ := List.mem_iff_getElem?.1 hw
  exact h (i :: p) x (by rw [at?, hi, Option.bind_some, hx])

/-- The term of a value with finite doubles has neither NaN nor infinity. -/
theorem Plain.finite_canon {v : Value} (h : v.Plain) (hfinite : v.FloatsFinite) :
    v.canon.Finite := by
  induction h with
  | null => exact .null
  | bool b => exact .bool b
  | integer i => exact .number _
  | float d =>
    have hd : d.IsFinite := hfinite [] d rfl
    rw [canon, floatTerm, if_neg hd.not_isNaN, if_pos hd]
    exact .number _
  | string s => exact .string _
  | list _ ih =>
    rw [canon, itemCanons_eq_map]
    refine .list fun t ht => ?_
    obtain ⟨v, hv, rfl⟩ := List.mem_map.1 ht
    exact ih v hv (hfinite.part hv)
  | @map m _ ih =>
    have hvalues : ∀ v ∈ m.values, v.canon.Finite := fun v hv => ih v hv (hfinite.part hv)
    obtain ⟨entries⟩ := m
    rw [Literal.canon_map]
    split
    · rw [canon, itemCanons_eq_map]
      refine .list fun t ht => ?_
      obtain ⟨v, hv, rfl⟩ := List.mem_map.1 ht
      exact hvalues v hv
    · refine .record fun e he => ?_
      obtain ⟨e', he', rfl⟩ := List.mem_map.1 he
      exact hvalues _ (List.mem_map_of_mem he')

theorem Plain.legible {v : Value} (h : v.Plain) : v.Legible := by
  unfold Legible
  rw [h.visits_eq_nil]
  exact nofun

end Value

/-! ## Numbers and null in a JSON text -/

namespace Json

/-- **No number of a JSON text is lost.**

    A number token, whatever text it stands in, is an integer or a finite double.  A
    text that is read is a text of a document, and the value of the text has, at each
    place, the value of what the document says there; so null stands where the text
    says null, and nowhere else.  The text has a literal, and what the literal says
    holds neither NaN nor an infinity. -/
theorem numbers_kept :
    (∀ t : Token, t.number.toValue.IsFiniteNumber) ∧
      ∀ (text : String) (j : Json), parse text = .ok j →
        ∃ d : Document, d.json = j ∧ text.toList ∈ padded d.texts ∧
          (∀ p, j.toValue.at? p = (d.at? p).map Document.value) ∧
          (∀ p, j.toValue.at? p = some .null ↔ d.at? p = some .null) ∧
          (∀ p x, j.toValue.at? p = some (.float x) → x.IsFinite) ∧
          ∃ t u, literalOfText text = .ok t ∧ Term.read t.toList = some (u, []) ∧ u.Finite := by
  refine ⟨Token.isFiniteNumber_toValue, fun text j hparse => ?_⟩
  obtain ⟨d, rfl, -, htext⟩ := exists_document_of_parse hparse
  have hplain : d.value.Plain := d.toValue_json ▸ plain_toValue d.json
  have hfinite : d.value.FloatsFinite := by
    intro p x hx
    rw [d.at?_value] at hx
    obtain ⟨e, -, he⟩ := Option.map_eq_some_iff.1 hx
    exact Document.isFinite_of_value_eq he
  rw [d.toValue_json]
  refine ⟨d, rfl, htext, d.at?_value, fun p => ?_, hfinite, d.value.canon.text, d.value.canon,
    ?_, ?_, hplain.finite_canon hfinite⟩
  · rw [d.at?_value, Option.map_eq_some_iff]
    simp only [Document.value_eq_null_iff, exists_eq_right]
  · rw [literalOfText, hparse]
    simp only [d.toValue_json, hplain.literal_eq]
    rfl
  · rw [Term.text, String.toList_ofList]
    exact Term.read_chars hplain.legible.readable_canon

/-- A number below the least double, a negative zero, an integer of 21 digits and a
    scaled fraction, each beside a null. -/
def extremesText : String :=
  "[1e-400, null, -0, 123456789012345678901, \x7b\"k\": null, \"m\": 1.5e22\x7d]"

theorem numbers_kept_extremes :
    ∃ j, parse extremesText = .ok j ∧
      ∃ d : Document, d.json = j ∧ extremesText.toList ∈ padded d.texts ∧
        (∀ p, j.toValue.at? p = (d.at? p).map Document.value) ∧
        (∀ p, j.toValue.at? p = some .null ↔ d.at? p = some .null) ∧
        (∀ p x, j.toValue.at? p = some (.float x) → x.IsFinite) ∧
        ∃ t u, literalOfText extremesText = .ok t ∧ Term.read t.toList = some (u, []) ∧
          u.Finite := by
  have hliteral : literalOfText extremesText = .ok
      "[0, null, -0, 123456789012345670000, \x7b'k': null, 'm': 15000000000000000000000\x7d]" := by
    decide +kernel
  cases hparse : parse extremesText with
  | ok j => exact ⟨j, rfl, numbers_kept.2 extremesText j hparse⟩
  | error e =>
    rw [literalOfText, hparse] at hliteral
    cases hliteral

end Json

end ScriptLiteral
