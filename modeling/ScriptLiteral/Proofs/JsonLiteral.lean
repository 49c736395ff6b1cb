/-
  Script literals — the literal of a JSON text.

  A text is read as the tree of the document that it is a text of, and the tree
  has the value of the document, so the literal depends on the document alone.

  * `mapValues` and `ofList_map_entries`: it makes no difference whether the members
    of an object become values before or after repeated keys are merged;
  * `Token.toValue_of_isInteger`: an integer token stands for its integer;
  * `Document.toValue_json`: the tree of a document has its value;
  * `literalOfText_of_mem_texts`: every text of a document has the literal of what
    the document says.
-/
import ScriptLiteral.Proofs.JsonReading
import ScriptLiteral.Proofs.JsonRoutes
import ScriptLiteral.Proofs.PlainValue

namespace ScriptLiteral

/-! ## Maps -/

namespace OrderedMap

variable {α β : Type} (f : α → β)

/-- The map with a function applied to every value. -/
def mapValues (m : OrderedMap α) : OrderedMap β := ⟨m.entries.map fun e => (e.1, f e.2)⟩

theorem place_map (k : String) (v : α) (l : List (String × α)) :
    (place k (f v) (l.map fun e => (e.1, f e.2))).2 =
      (place k v l).2.map fun e => (e.1, f e.2) := by
  induction l with
  | nil => rfl
  | cons e l ih =>
    rw [List.map_cons, place, place]
    split
    · rfl
    · rw [List.map_cons, ← ih]

theorem mapValues_insert (m : OrderedMap α) (k : String) (v : α) :
    (m.insert k v).mapValues f = (m.mapValues f).insert k (f v) :=
  congrArg OrderedMap.mk (place_map f k v m.entries).symm

theorem mapValues_extend (m : OrderedMap α) (pairs : List (String × α)) :
    (m.extend pairs).mapValues f =
      (m.mapValues f).extend (pairs.map fun e => (e.1, f e.2)) := by
  induction pairs generalizing m with
  | nil => rfl
  | cons e pairs ih =>
    rw [extend_cons, ih, mapValues_insert]
    rfl

theorem mapValues_ofList (pairs : List (String × α)) :
    (ofList pairs).mapValues f = ofList (pairs.map fun e => (e.1, f e.2)) :=
  mapValues_extend f empty pairs

theorem place_of_notMem {k : String} {v : α} {l : List (String × α)} (h : k ∉ l.map (·.1)) :
    (place k v l).2 = l ++ [(k, v)] := by
  induction l with
  | nil => rfl
  | cons e l ih =>
    obtain ⟨hne, hl⟩ := not_or.1 (mt List.mem_cons.2 h)
    rw [place, if_neg (Ne.symm hne)]
    exact congrArg (e :: ·) (ih hl)

theorem extend_eq_append {m : OrderedMap α} {pairs : List (String × α)}
    (h : ((m.entries ++ pairs).map (·.1)).Nodup) : m.extend pairs = ⟨m.entries ++ pairs⟩ := by
  induction pairs generalizing m with
  | nil => rw [List.append_nil]; rfl
  | cons e pairs ih =>
    obtain ⟨k, v⟩ := e
    have hk : k ∉ m.entries.map (·.1) := by
      rw [List.map_append, List.map_cons] at h
      exact fun hmem => (List.nodup_append.1 h).2.2 k hmem k (List.mem_cons_self ..) rfl
    have hinsert : (m.insert k v).entries = m.entries ++ [(k, v)] := place_of_notMem hk
    have e : (m.insert k v).entries ++ pairs = m.entries ++ (k, v) :: pairs := by
      rw [hinsert, List.append_assoc, List.singleton_append]
    rw [extend_cons, ih (e ▸ h), e]

theorem DistinctKeys.ofList_entries {m : OrderedMap α} (h : m.DistinctKeys) :
    ofList m.entries = m :=
  extend_eq_append (m := empty) h

theorem ofList_map_entries (pairs : List (String × α)) :
    ofList ((ofList pairs).entries.map fun e => (e.1, f e.2)) =
      ofList (pairs.map fun e => (e.1, f e.2)) := by
  have h : ((ofList pairs).mapValues f).DistinctKeys := by
    rw [mapValues_ofList]
    exact distinctKeys_empty.extend _
  show ofList ((ofList pairs).mapValues f).entries = _
  rw [h.ofList_entries, mapValues_ofList]

end OrderedMap

namespace Json

/-! ## Integers -/

theorem absorb_eq_of_le {bound n : Nat} {cs : List Char}
    (h : Nat.ofDigitChars 10 cs n ≤ bound) : absorb bound n cs = (Nat.ofDigitChars 10 cs n, []) := by
  induction cs generalizing n with
  | nil => rfl
  | cons c cs ih =>
    have hstep : Nat.ofDigitChars 10 (c :: cs) n =
        Nat.ofDigitChars 10 cs (10 * n + digitValue c) := Nat.ofDigitChars_cons ..
    rw [hstep] at h ⊢
    rw [absorb, if_pos (Nat.le_trans (le_ofDigitChars cs _) h), ih h]

/-- The value of an integer below `2 ^ 64`, zero without a minus. -/
theorem toValue_integerNumber {negative : Bool} {n : Nat} (hn : n ≤ significandBound)
    (hzero : negative = true → 0 < n) :
    (integerNumber negative n).toValue = Value.ofInt (if negative then -n else n) := by
  have hmin : Int64.minValue.toInt = -0x8000000000000000 := by decide
  have hmax : Int64.maxValue.toInt = 0x7FFFFFFFFFFFFFFF := by decide
  unfold significandBound at hn
  cases negative with
  | true =>
    have hpos := hzero rfl
    simp only [integerNumber, if_true, hpos, true_and, Value.ofInt, hmin, hmax]
    split
    · rw [if_pos (by omega)]
      rfl
    · rw [if_neg (by omega), Double.ofInt, decide_eq_true (by omega), Int.natAbs_neg,
        Int.natAbs_natCast]
      rfl
  | false =>
    have hnat : (UInt64.ofNat n).toNat = n :=
      UInt64.toNat_ofNat_of_lt' (Nat.lt_of_le_of_lt hn (by decide))
    simp only [integerNumber, Bool.false_eq_true, if_false, Number.toValue, Number.signed?,
      Number.unsigned?, hnat]
    by_cases h : (n : Int) ≤ Int64.maxValue.toInt
    · rw [if_pos h, Value.ofInt_natCast_of_le h]
    · rw [if_neg h]

/-- **An integer token within 64 bits is its integer**: an integer value if 64
    signed bits hold it, else the double nearest to it. -/
theorem Token.toValue_of_isInteger {t : Token} (h : t.numeral.IsInteger) {n : Nat}
    (hn : Nat.ofDigitChars 10 t.numeral.whole 0 = n) (hbound : n ≤ significandBound)
    (hzero : t.numeral.negative = true → 0 < n) :
    t.number.toValue = Value.ofInt (if t.numeral.negative then -n else n) := by
  subst hn
  have hnumber : t.numeral.number =
      .ok (integerNumber t.numeral.negative (Nat.ofDigitChars 10 t.numeral.whole 0)) := by
    rw [Numeral.number, absorb_eq_of_le hbound]
    simp only [h, true_and, if_true]
  have e := t.inRange.symm.trans hnumber
  rw [Except.ok.inj e, toValue_integerNumber hbound hzero]

/-! ## Values -/

namespace Document

mutual

theorem toValue_json : ∀ d : Document, d.json.toValue = d.value
  | null => rfl
  | bool _ => rfl
  | number _ => rfl
  | string _ => rfl
  | array items => by
    rw [json, toValue, value, itemValues_itemTrees items]
  | object members => by
    have h := OrderedMap.ofList_map_entries toValue (memberTrees members)
    rw [← memberValues_eq_map, ← memberValues_eq_map, memberValues_memberTrees members] at h
    rw [json, toValue, value, h]

theorem itemValues_itemTrees : ∀ items : List Document,
    Json.itemValues (itemTrees items) = itemValues items
  | [] => rfl
  | d :: items => by
    rw [itemTrees, Json.itemValues, itemValues, toValue_json d, itemValues_itemTrees items]

theorem memberValues_memberTrees : ∀ members : List (String × Document),
    Json.memberValues (memberTrees members) = memberValues members
  | [] => rfl
  | (_, d) :: rest => by
    rw [memberTrees, Json.memberValues, memberValues, toValue_json d,
      memberValues_memberTrees rest]

end

end Document

/-! ## Literals -/

/-- **Every text of a document has the literal of what the document says**,
    whatever its layout and however its characters are written, if no more brackets
    are open at once than may be. -/
theorem literalOfText_of_mem_texts {d : Document} (h : d.depth ≤ greatestDepth) :
    ∃ t, d.value.literal = .ok t ∧
      ∀ text : String, text.toList ∈ padded d.texts → literalOfText text = .ok t := by
  have hplain : d.value.Plain := d.toValue_json ▸ plain_toValue d.json
  refine ⟨d.value.canon.text, hplain.literal_eq, fun text htext => ?_⟩
  rw [literalOfText, parse_texts h htext]
  simp only [d.toValue_json, hplain.literal_eq]
  rfl

/-- The token `-7`. -/
def minusSeven : Token where
  numeral := ⟨true, ['7'], [], none⟩
  grammatical := ⟨by decide, nofun, nofun⟩
  number := .signed (-7)
  inRange := rfl

/-- A document with a repeated key. -/
def repeatedKey : Document := .object [("a", .array [.number minusSeven]), ("a", .string "😀")]

/-- A text of it, with blanks; the second time, the key is escaped. -/
def repeatedKeyText : String := "\x7b\"a\": [-7 ],\n\"\\u0061\":\"\\uD83d\\uDE00\"\x7d"

theorem mem_stringTexts_singleton {c : Char} {cs : List Char} (h : Spells c cs) :
    '"' :: (cs ++ ['"']) ∈ stringTexts (String.singleton c) := by
  have htexts : cs ∈ ((String.singleton c).toList.map charTexts).prod := by
    rw [String.toList_singleton, List.map_singleton, List.prod_singleton]
    exact h
  exact mem_enclosed.2 ⟨cs, htexts, rfl⟩

theorem repeatedKeyText_mem : repeatedKeyText.toList ∈ padded repeatedKey.texts := by
  have hnone := nil_mem_blanks
  have hspace : [' '] ∈ blanks := by
    intro c hc
    obtain rfl := List.mem_singleton.1 hc
    exact List.mem_cons_self ..
  have hline : ['\n'] ∈ blanks := by
    intro c hc
    obtain rfl := List.mem_singleton.1 hc
    exact List.mem_of_elem_eq_true rfl
  have hraw : Spells 'a' ['a'] := .raw (by decide) (by decide) (by decide)
  have hunit : Spells 'a' ['\\', 'u', '0', '0', '6', '1'] :=
    .unit (by decide) ⟨'0', '0', '6', '1', rfl, .inl rfl, .inl rfl, .inl rfl, .inl rfl⟩
  have hleading : ['D', '8', '3', 'd'] ∈ unitTexts (leadingUnit '😀') := by
    rw [show leadingUnit '😀' = 0xD83D by decide]
    exact ⟨_, _, _, _, rfl, .inr rfl, .inl rfl, .inl rfl, .inl rfl⟩
  have htrailing : ['D', 'E', '0', '0'] ∈ unitTexts (trailingUnit '😀') := by
    rw [show trailingUnit '😀' = 0xDE00 by decide]
    exact ⟨_, _, _, _, rfl, .inr rfl, .inr rfl, .inl rfl, .inl rfl⟩
  have hpair : Spells '😀' (['\\', 'u', 'D', '8', '3', 'd'] ++ ['\\', 'u', 'D', 'E', '0', '0']) :=
    .pair (by decide) hleading htrailing
  have hnumber : ['-', '7'] ∈ numeralTexts minusSeven.numeral :=
    Language.mem_mul.2 ⟨['-', '7'], rfl, [], Language.nil_mem_one, rfl⟩
  have harray : ['[', '-', '7', ' ', ']'] ∈ (Document.array [.number minusSeven]).texts :=
    mem_enclosed.2 ⟨['-', '7', ' '], mem_listed_cons.2 ⟨[], hnone, ['-', '7'], hnumber, [' '],
      hspace, [], Language.nil_mem_one, rfl⟩, rfl⟩
  have hcolon : ∀ ws ∈ blanks, ':' :: ws ∈ padded {[':']} := fun ws hws =>
    mem_padded.2 ⟨[], hnone, [':'], rfl, ws, hws, rfl⟩
  have hfirst := Language.append_mem_mul
    (Language.append_mem_mul (mem_stringTexts_singleton hraw) (hcolon [' '] hspace)) harray
  have hsecond := Language.append_mem_mul
    (Language.append_mem_mul (mem_stringTexts_singleton hunit) (hcolon [] hnone))
    (mem_stringTexts_singleton hpair)
  have hlast : _ ∈ listed (Document.memberTexts [("a", .string "😀")]) :=
    mem_listed_cons.2 ⟨['\n'], hline, _, hsecond, [], hnone, [], Language.nil_mem_one, rfl⟩
  have hmembers : _ ∈ listed (Document.memberTexts
      [("a", .array [.number minusSeven]), ("a", .string "😀")]) :=
    mem_listed_cons.2 ⟨[], hnone, _, hfirst, [], hnone, _,
      mem_commaTexts_cons.2 ⟨_, hlast, rfl⟩, rfl⟩
  exact mem_padded.2 ⟨[], hnone, _, mem_enclosed.2 ⟨_, hmembers, rfl⟩, [], hnone, rfl⟩

theorem literalOfText_repeatedKeyText : repeatedKey.depth ≤ greatestDepth ∧
    repeatedKeyText.toList ∈ padded repeatedKey.texts ∧
    repeatedKey.value.literal = .ok "\x7b'a': '😀'\x7d" ∧
    literalOfText repeatedKeyText = .ok "\x7b'a': '😀'\x7d" := by
  have hdepth : repeatedKey.depth ≤ greatestDepth := by decide
  have hvalue : repeatedKey.value.literal = .ok "\x7b'a': '😀'\x7d" := by rfl
  obtain ⟨t, ht, htexts⟩ := literalOfText_of_mem_texts hdepth
  obtain rfl := Except.ok.inj (ht.symm.trans hvalue)
  exact ⟨hdepth, repeatedKeyText_mem, hvalue, htexts repeatedKeyText repeatedKeyText_mem⟩

end Json

end ScriptLiteral
