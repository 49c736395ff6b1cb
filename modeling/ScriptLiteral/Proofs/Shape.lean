/-
  Script literals — the shape of the literal of a map.

  A map is written as a list if its keys are the positions of its entries, and as
  an object literal if they are not.

  * `isWordKey` reads a key as a 64-bit word, digit by digit, and
    `isWordKey_iff` says that only one text is the key of a word;
  * `literal_map_eq`: in an object literal every entry stands with its key and the
    literal of its value, in the order of the map;
  * `map_shape`: when a map is a list, and what its literal is in either case.
-/
import Mathlib
import ScriptLiteral.Proofs.Composition
import ScriptLiteral.Proofs.Failure

namespace ScriptLiteral

/-! ## Keys that are words -/

/-- Take a digit into a 64-bit word, if the number still fits. -/
def shiftDigit? (w : UInt64) (c : Char) : Option UInt64 :=
  if 10 * w.toNat + digitValue c < UInt64.size then
    some (UInt64.ofNat (10 * w.toNat + digitValue c))
  else none

/-- The 64-bit word with these digits, if they fit. -/
def word? (digits : List Char) : Option UInt64 := digits.foldlM shiftDigit? 0

/-- Whether a key is the canonical decimal text of a word: one digit or more, no
    zero in front of another digit, and that word when it is read. -/
def isWordKey (key : String) (w : UInt64) : Bool :=
  let digits := key.toList
  if digits.isEmpty || !digits.all Char.isDigit then false
  else if decide (1 < digits.length) && digits.head? == some '0' then false
  else word? digits == some w

/-- Whether the keys are the words from zero on, in order. -/
def OrderedMap.isIndexedByWords {α : Type} (m : OrderedMap α) : Bool :=
  m.keys.zipIdx.all fun (key, i) => isWordKey key (UInt64.ofNat i)

/-- **Digits are read as the word that they denote**; a number that does not fit
    is no word, however many digits follow. -/
theorem foldlM_shiftDigit?_eq_some_iff {cs : List Char} {v w : UInt64} :
    cs.foldlM shiftDigit? v = some w ↔ Nat.ofDigitChars 10 cs v.toNat = w.toNat := by
  induction cs generalizing v with
  | nil => rw [Nat.ofDigitChars_nil, UInt64.toNat_inj]; exact Option.some_inj
  | cons c cs ih =>
    have hstep : Nat.ofDigitChars 10 (c :: cs) v.toNat =
        Nat.ofDigitChars 10 cs (10 * v.toNat + digitValue c) := Nat.ofDigitChars_cons ..
    rw [List.foldlM_cons, shiftDigit?, hstep]
    split
    · next h =>
      have hnat : (UInt64.ofNat (10 * v.toNat + digitValue c)).toNat =
          10 * v.toNat + digitValue c := UInt64.toNat_ofNat_of_lt' h
      rw [Option.bind_eq_bind, Option.bind_some, ih, hnat]
    · next h =>
      have hlt := w.toNat_lt
      have hle := le_ofDigitChars cs (10 * v.toNat + digitValue c)
      have hsize : UInt64.size = 2 ^ 64 := rfl
      constructor
      · intro h; nomatch h
      · intro h; omega

/-- **Only the canonical decimal text of a word is its key.** -/
theorem isWordKey_iff {key : String} {w : UInt64} :
    isWordKey key w = true ↔ key = positionKey w.toNat := by
  have hcanonical : CanonicalDigits key.toList ∧ word? key.toList = some w ↔
      index? key = some w.toNat := by
    rw [word?, foldlM_shiftDigit?_eq_some_iff, index?]
    by_cases h : CanonicalDigits key.toList
    · rw [if_pos h]; simp [h]
    · rw [if_neg h]; simp [h]
  rw [← index?_eq_some_iff_positionKey, ← hcanonical, isWordKey, CanonicalDigits]
  rcases key.toList with _ | ⟨c, _ | ⟨d, cs⟩⟩
  · simp
  · simp
  · by_cases hc : c = '0' <;> simp [hc, Bool.and_eq_true, and_assoc]

theorem OrderedMap.isIndexedByWords_eq {α : Type} {m : OrderedMap α}
    (h : m.size < UInt64.size) : m.isIndexedByWords = m.isIndexed := by
  have hword : ∀ i < m.size, (UInt64.ofNat i).toNat = i :=
    fun i hi => UInt64.toNat_ofNat_of_lt' (hi.trans h)
  rw [Bool.eq_iff_iff, isIndexed_iff, isIndexedByWords, List.all_eq_true]
  constructor
  · intro hall
    refine List.ext_getElem (by simp [length_keys]) fun i hi _ => ?_
    have hkey := hall (m.keys[i], i) (List.mem_zipIdx_iff_getElem?.2 (List.getElem?_eq_getElem hi))
    rw [isWordKey_iff, hword i (length_keys m ▸ hi)] at hkey
    simpa using hkey
  · rintro hkeys ⟨key, i⟩ hmem
    have hkey : m.keys[i]? = some key := List.mem_zipIdx_iff_getElem?.1 hmem
    have hi : i < m.size := length_keys m ▸ (List.getElem?_eq_some_iff.1 hkey).1
    rw [isWordKey_iff, hword i hi]
    rw [hkeys, List.getElem?_map, List.getElem?_range hi] at hkey
    exact (Option.some.inj hkey).symm

/-! ## Object literals -/

namespace Value

open Literal Term

theorem firstFault_of_mem_entries {entries : List (String × Value)} {e : String × Value}
    (h : firstFault (Value.map ⟨entries⟩).visits = none) (he : e ∈ entries) :
    firstFault e.2.visits = none := by
  rw [visits, entryVisits_eq_flatMap] at h
  refine List.findSome?_eq_none_iff.2 fun x hx => ?_
  exact List.findSome?_eq_none_iff.1 h x (List.mem_flatMap.2 ⟨e, he, hx⟩)

theorem literal_map_eq {m : OrderedMap Value} (hm : m.isIndexed = false) {t : String}
    (h : (Value.map m).literal = .ok t) :
    ∃ ts : List String, List.Forall₂ (fun v t => v.literal = .ok t) m.values ts ∧
      t = "\x7b" ++ ", ".intercalate (List.zipWith (fun k t => key k ++ ": " ++ t) m.keys ts) ++
        "\x7d" := by
  obtain ⟨entries⟩ := m
  rw [literal_eq] at h
  cases hf : firstFault (Value.map ⟨entries⟩).visits with
  | some f => rw [hf] at h; nomatch h
  | none =>
    rw [hf] at h
    obtain rfl := Except.ok.inj h
    refine ⟨entries.map fun e => e.2.canon.text, ?_, ?_⟩
    · rw [OrderedMap.values, List.forall₂_map_left_iff, List.forall₂_map_right_iff,
        List.forall₂_same]
      intro e he
      rw [literal_eq, firstFault_of_mem_entries hf he]
    · rw [canon_map, hm, if_neg (by simp), text_record, enclosed, OrderedMap.keys,
        List.zipWith_map, List.zipWith_self]

/-- **The shape of the literal of a map**, for maps of less than `2 ^ 64` entries.

    A map is a list if its keys are the decimal texts of the numbers from zero on,
    in order, whether keys are read as numbers or as words; then all that is
    written and reported is what is written and reported for the list of its
    values.  If it is no list, a literal of it has all entries between braces, in
    order, each value with its own literal. -/
theorem map_shape (m : OrderedMap Value) (h : m.size < UInt64.size) :
    (m.isIndexed = true ↔ m.keys = (List.range m.size).map positionKey) ∧
      m.isIndexedByWords = m.isIndexed ∧
      (m.isIndexed = true → (Value.map m).emission = (Value.list m.values).emission) ∧
      (m.isIndexed = false → ∀ t, (Value.map m).literal = .ok t →
        ∃ ts : List String, List.Forall₂ (fun v t => v.literal = .ok t) m.values ts ∧
          t = "\x7b" ++
            ", ".intercalate (List.zipWith (fun k t => key k ++ ": " ++ t) m.keys ts) ++ "\x7d") := by
  refine ⟨OrderedMap.isIndexed_iff, OrderedMap.isIndexedByWords_eq h, fun hm => ?_,
    fun hm t ht => literal_map_eq hm ht⟩
  unfold emission
  rw [emit_map_of_isIndexed hm]

/-- A map whose second key has a superfluous zero. -/
def paddedKeys : OrderedMap Value := ⟨[("0", .string "it's"), ("01", .list [.null])]⟩

theorem map_shape_paddedKeys : paddedKeys.size < UInt64.size ∧
    paddedKeys.isIndexedByWords = paddedKeys.isIndexed ∧ paddedKeys.isIndexed = false ∧
      ∃ ts : List String, List.Forall₂ (fun v t => v.literal = .ok t) paddedKeys.values ts ∧
        "\x7b'0': 'it\\'s', '01': [null]\x7d" = "\x7b" ++
          ", ".intercalate (List.zipWith (fun k t => key k ++ ": " ++ t) paddedKeys.keys ts) ++
            "\x7d" := by
  have hsize : paddedKeys.size < UInt64.size := by decide
  have hindexed : paddedKeys.isIndexed = false := by decide
  have hliteral : (Value.map paddedKeys).literal = .ok "\x7b'0': 'it\\'s', '01': [null]\x7d" := by
    rfl
  obtain ⟨-, hwords, -, hobject⟩ := map_shape paddedKeys hsize
  exact ⟨hsize, hwords, hindexed, hobject hindexed _ hliteral⟩

end Value

end ScriptLiteral
