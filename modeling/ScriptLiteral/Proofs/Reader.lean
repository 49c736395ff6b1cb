/-
  Script literals — reading a literal.

  A literal is read from left to right without looking back.  Brackets nest to a
  depth that is given in advance; the length of the text is always enough.

  * `readQuoted` takes a string behind its opening quote, `readKey` a key and
    `readBracket` what stands between two brackets;
  * `readTerm depth` takes a term whose brackets nest less than `depth` deep, and
    `Term.read` a term of any depth;
  * `Readable` are the terms without source text of the host whose numbers are
    decimals, and `read_chars` says that they are read as they were written.
-/
import ScriptLiteral.Proofs.Term

namespace ScriptLiteral

namespace Term

/-! ## Strings and keys -/

/-- Take the characters of a string up to its closing quote, and the quote.  A
    backslash stands in front of a backslash, a quote or `n`, and a line feed
    stands nowhere. -/
def readQuoted : List Char → Option (List Char × List Char)
  | [] => none
  | '\'' :: rest => some ([], rest)
  | '\\' :: '\\' :: rest => (readQuoted rest).map fun (cs, rest) => ('\\' :: cs, rest)
  | '\\' :: '\'' :: rest => (readQuoted rest).map fun (cs, rest) => ('\'' :: cs, rest)
  | '\\' :: 'n' :: rest => (readQuoted rest).map fun (cs, rest) => ('\n' :: cs, rest)
  | '\\' :: _ => none
  | '\n' :: _ => none
  | c :: rest => (readQuoted rest).map fun (cs, rest) => (c :: cs, rest)

/-- Take a key, quoted or bare. -/
def readKey : List Char → Option (String × List Char)
  | '\'' :: rest => (readQuoted rest).map fun (cs, rest) => (String.ofList cs, rest)
  | text =>
    let word := text.takeWhile Literal.isKeyPart
    if Literal.isBareKey word then some (String.ofList word, text.dropWhile Literal.isKeyPart)
    else none

/-! ## Numbers, words and dates -/

/-- The words of the language with what they say. -/
def words : List (List Char × Term) :=
  [(nullWord, null), (trueWord, bool true), (falseWord, bool false), (nanWord, nan),
    (infinityWord, infinity false), ('-' :: infinityWord, infinity true)]

/-- Take a word. -/
def readWord (text : List Char) : Option (Term × List Char) :=
  words.findSome? fun (word, t) => (word.isPrefixOf? text).map (t, ·)

/-- Take the milliseconds of a date and the bracket behind them. -/
def readMilliseconds (text : List Char) : Option (Term × List Char) :=
  match PlainNumber.read text with
  | some (n, ')' :: rest) => some (date n.value, rest)
  | _ => none

/-- Take a term without brackets and quotes: a word, a date or a number. -/
def readPlain (text : List Char) : Option (Term × List Char) :=
  match readWord text with
  | some r => some r
  | none =>
    match dateWord.isPrefixOf? text with
    | some rest => readMilliseconds rest
    | none => (PlainNumber.read text).map fun (n, rest) => (number (String.ofList n.chars), rest)

/-! ## Brackets -/

section
variable {α : Type} (item : List Char → Option (α × List Char)) (close : Char)

/-- Take at most `count` items with commas between them, and the closing
    bracket. -/
def readItems : (count : Nat) → List Char → Option (List α × List Char)
  | 0, _ => none
  | count + 1, text =>
    match item text with
    | some (a, ',' :: ' ' :: rest) =>
      (readItems count rest).map fun (as, rest) => (a :: as, rest)
    | some (a, c :: rest) => if c = close then some ([a], rest) else none
    | _ => none

/-- Take what stands behind an opening bracket, and the closing one. -/
def readBracket (text : List Char) : Option (List α × List Char) :=
  match text with
  | [] => none
  | c :: rest =>
    if c = close then some ([], rest) else readItems item close (c :: rest).length (c :: rest)

end

/-- Take a key, a colon, and a value with the given reader. -/
def readEntry (value : List Char → Option (Term × List Char)) (text : List Char) :
    Option ((String × Term) × List Char) :=
  match readKey text with
  | some (k, ':' :: ' ' :: rest) => (value rest).map fun (t, rest) => ((k, t), rest)
  | _ => none

/-- Take a term whose brackets nest less than `depth` deep. -/
def readTerm : (depth : Nat) → List Char → Option (Term × List Char)
  | 0, _ => none
  | depth + 1, text =>
    match text with
    | '\'' :: rest => (readQuoted rest).map fun (cs, rest) => (string (String.ofList cs), rest)
    | '[' :: rest => (readBracket (readTerm depth) ']' rest).map fun (ts, rest) => (list ts, rest)
    | '\x7b' :: rest =>
      (readBracket (readEntry (readTerm depth)) '\x7d' rest).map fun (es, rest) => (record es, rest)
    | text => readPlain text

/-- **The reader of literals**: take a term from a text. -/
def read (text : List Char) : Option (Term × List Char) := readTerm text.length text

/-! ## Strings and keys are read as they were written -/

theorem readQuoted_escapeChar (c : Char) (rest : List Char) :
    readQuoted (escapeChar c ++ rest) =
      (readQuoted rest).map fun (cs, rest) => (c :: cs, rest) := by
  unfold escapeChar
  split
  · simp [readQuoted]
  · simp [readQuoted]
  · simp [readQuoted]
  · rw [List.singleton_append, readQuoted]
    all_goals simp_all

theorem readQuoted_escaped (cs rest : List Char) :
    readQuoted (cs.flatMap escapeChar ++ '\'' :: rest) = some (cs, rest) := by
  induction cs with
  | nil => rfl
  | cons c cs ih => rw [List.flatMap_cons, List.append_assoc, readQuoted_escapeChar, ih]; rfl

theorem isKeyPart_of_isBareKey {cs : List Char} (h : Literal.isBareKey cs = true) :
    ∀ c ∈ cs, Literal.isKeyPart c = true := by
  unfold Literal.isBareKey at h
  split at h
  · next c d cs =>
    simp only [Bool.and_eq_true, List.all_eq_true] at h
    obtain ⟨⟨h₁, h₂⟩, h₃⟩ := h
    have hc : Literal.isKeyPart c = true := by
      simp only [Literal.isKeyStart, Literal.isKeyPart, Char.isAlphanum, Bool.or_eq_true] at h₁ ⊢
      tauto
    rintro x (_ | ⟨_, _ | ⟨_, hx⟩⟩)
    · exact hc
    · exact h₂
    · exact h₃ x hx
  · nomatch h

theorem readKey_keyChars (k : String) {rest : List Char}
    (hrest : ∀ c, rest.head? = some c → Literal.isKeyPart c = false) :
    readKey (keyChars k ++ rest) = some (k, rest) := by
  unfold keyChars
  split
  · next hb =>
    have hp := isKeyPart_of_isBareKey hb
    have ht : (k.toList ++ rest).takeWhile Literal.isKeyPart = k.toList ∧
        (k.toList ++ rest).dropWhile Literal.isKeyPart = rest := by
      rw [List.takeWhile_append_of_pos hp, List.dropWhile_append_of_pos hp]
      cases rest with
      | nil => simp
      | cons c rest => simp [hrest c rfl]
    have hq : ∀ cs, k.toList ++ rest ≠ '\'' :: cs := by
      intro cs e
      have ht := ht.1
      rw [e] at ht
      rw [← ht] at hb
      nomatch hb
    unfold readKey
    split
    · next e => exact absurd e (hq _)
    · simp only [ht, hb, if_true, String.ofList_toList]
  · simp only [quoted, List.cons_append, List.append_assoc, List.nil_append, readKey,
      readQuoted_escaped, Option.map_some, String.ofList_toList]

/-! ## Words, numbers and dates are read as they were written -/

theorem readPlain_of_isDigit {c : Char} (h : c.isDigit = true) (cs : List Char) :
    readPlain (c :: cs) =
      (PlainNumber.read (c :: cs)).map fun (n, rest) => (number (String.ofList n.chars), rest) := by
  have hne : ∀ d : Char, d.isDigit = false → (d == c) = false := by
    intro d hd
    rw [beq_eq_false_iff_ne]
    rintro rfl
    rw [h] at hd
    nomatch hd
  simp [readPlain, readWord, words, nullWord, trueWord, falseWord, nanWord, infinityWord,
    dateWord, List.isPrefixOf?, hne]

theorem readPlain_of_sign {c : Char} (h : c.isDigit = true) (cs : List Char) :
    readPlain ('-' :: c :: cs) =
      (PlainNumber.read ('-' :: c :: cs)).map fun (n, rest) =>
        (number (String.ofList n.chars), rest) := by
  have hne : ('I' == c) = false := by
    rw [beq_eq_false_iff_ne]
    rintro rfl
    nomatch h
  simp [readPlain, readWord, words, nullWord, trueWord, falseWord, nanWord, infinityWord,
    dateWord, List.isPrefixOf?, hne]

theorem readPlain_decimal (d : Decimal) {rest : List Char} (hr : PlainNumber.Ends rest) :
    readPlain (d.chars ++ rest) = some (number d.text, rest) := by
  have hw := d.wellFormed_plain
  have hread := PlainNumber.read_chars hw hr
  obtain ⟨c, cs, hc⟩ := List.exists_cons_of_ne_nil hw.whole_ne
  have hdigit : c.isDigit = true := hw.whole_digits c (hc ▸ List.mem_cons_self ..)
  have hplain : readPlain (d.plain.chars ++ rest) =
      (PlainNumber.read (d.plain.chars ++ rest)).map fun (n, rest) =>
        (number (String.ofList n.chars), rest) := by
    rw [PlainNumber.chars, hc]
    cases d.plain.negative with
    | true => exact readPlain_of_sign hdigit _
    | false => exact readPlain_of_isDigit hdigit _
  rw [← Decimal.chars_plain, hplain, hread, Decimal.text, ← Decimal.chars_plain]
  rfl

theorem readPlain_date (n : ℤ) (rest : List Char) :
    readPlain ((date (n / 1000)).chars ++ rest) = some (date (n / 1000), rest) := by
  have hread := PlainNumber.read_chars (thousandths (n / 1000)).wellFormed_plain
    (PlainNumber.ends_cons (c := ')') (by decide) rest)
  have hvalue : (thousandths (n / 1000)).plain.value = n / 1000 := by
    rw [Decimal.value_plain, thousandths_div, Decimal.value]
    rcases lt_or_ge n 0 with h | h
    · have habs : (n.natAbs : ℚ) = -n := by
        rw [Nat.cast_natAbs, abs_of_neg h]; push_cast; rfl
      simp [h, habs, tenTo]
    · have habs : (n.natAbs : ℚ) = n := by
        rw [Nat.cast_natAbs, abs_of_nonneg h]
      simp [h.not_gt, habs, tenTo]
  rw [Decimal.chars_plain] at hread
  have hword : readWord (dateWord ++ ((thousandths (n / 1000)).chars ++ ')' :: rest)) = none := by
    simp [readWord, words, nullWord, trueWord, falseWord, nanWord, infinityWord, dateWord,
      List.isPrefixOf?]
  have hdate : dateWord.isPrefixOf? (dateWord ++ ((thousandths (n / 1000)).chars ++ ')' :: rest)) =
      some ((thousandths (n / 1000)).chars ++ ')' :: rest) := by
    simp [dateWord, List.isPrefixOf?]
  rw [chars, List.append_assoc, List.append_assoc, List.singleton_append, readPlain, hword]
  dsimp only
  rw [hdate]
  dsimp only
  rw [readMilliseconds, hread]
  exact congrArg (fun q => some (date q, rest)) hvalue

/-! ## Brackets are read as they were written -/

section
variable {α : Type} {item : List Char → Option (α × List Char)} {close : Char}
  {print : α → List Char}

theorem readItems_separated {a : α} {as : List α} {count : Nat} {rest : List Char}
    (hitem : ∀ b ∈ a :: as, ∀ rest, PlainNumber.Ends rest →
      item (print b ++ rest) = some (b, rest))
    (hclose : PlainNumber.Ends (close :: rest)) (hcomma : close ≠ ',')
    (hcount : as.length < count) :
    readItems item close count (separated ((a :: as).map print) ++ close :: rest) =
      some (a :: as, rest) := by
  induction as generalizing a count with
  | nil =>
    obtain ⟨count, rfl⟩ : ∃ n, count = n + 1 := ⟨count - 1, by simp at hcount; omega⟩
    have ha := hitem a (List.mem_cons_self ..) _ hclose
    simp [readItems, separated, ha, hcomma]
  | cons b bs ih =>
    obtain ⟨count, rfl⟩ : ∃ n, count = n + 1 := ⟨count - 1, by simp at hcount; omega⟩
    have ha := hitem a (List.mem_cons_self ..) _ <|
      PlainNumber.ends_cons (c := ',') (by decide)
        (' ' :: (separated ((b :: bs).map print) ++ close :: rest))
    have hbs : readItems item close count (separated ((b :: bs).map print) ++ close :: rest) =
        some (b :: bs, rest) :=
      ih (fun c hc => hitem c (List.mem_cons_of_mem _ hc)) (by simpa using hcount)
    rw [List.map_cons, List.map_cons, separated_cons_cons, List.append_assoc, readItems]
    rw [List.cons_append, List.cons_append, ← List.map_cons, ha]
    exact congrArg (Option.map fun (as, rest) => (a :: as, rest)) hbs

theorem readBracket_separated {as : List α} {rest : List Char}
    (hitem : ∀ b ∈ as, ∀ rest, PlainNumber.Ends rest → item (print b ++ rest) = some (b, rest))
    (hclose : PlainNumber.Ends (close :: rest)) (hcomma : close ≠ ',')
    (hnone : ∀ cs, item (close :: cs) = none) :
    readBracket item close (separated (as.map print) ++ close :: rest) = some (as, rest) := by
  cases as with
  | nil => simp [readBracket, separated]
  | cons a as =>
    have hcount : as.length < (separated ((a :: as).map print) ++ close :: rest).length := by
      have := length_tail_le_separated (print a) (as.map print)
      rw [List.length_map] at this
      rw [List.map_cons, List.length_append, List.length_cons]
      omega
    have hitems := readItems_separated hitem hclose hcomma hcount
    unfold readBracket
    split
    · next e => simp at e
    · next c cs e =>
      rw [e] at hitems
      rw [if_neg ?_, hitems]
      rintro rfl
      -- an item would start with the closing bracket
      rw [List.length_cons, readItems, hnone] at hitems
      contradiction

end

/-! ## Terms are read as they were written -/

/-- A term without source text of the host, whose numbers are decimals and whose
    dates are whole thousandths. -/
inductive Readable : Term → Prop where
  | null : Readable null
  | bool (b : Bool) : Readable (bool b)
  | nan : Readable nan
  | infinity (negative : Bool) : Readable (infinity negative)
  | number (d : Decimal) : Readable (number d.text)
  | string (s : String) : Readable (string s)
  | list {items : List Term} (h : ∀ t ∈ items, Readable t) : Readable (list items)
  | record {entries : List (String × Term)} (h : ∀ e ∈ entries, Readable e.2) :
    Readable (record entries)
  | date (n : ℤ) : Readable (date (n / 1000))

theorem Readable.chars_ne_nil {t : Term} (h : Readable t) : t.chars ≠ [] := by
  cases h with
  | bool b => cases b <;> exact List.cons_ne_nil _ _
  | infinity negative => cases negative <;> exact List.cons_ne_nil _ _
  | number d =>
    have hw := d.wellFormed_plain.whole_ne
    rw [chars, Decimal.text, String.toList_ofList, ← Decimal.chars_plain]
    simp [PlainNumber.chars, hw]
  | _ => exact List.cons_ne_nil _ _

theorem readTerm_close (depth : Nat) (cs : List Char) : readTerm depth (']' :: cs) = none := by
  cases depth with
  | zero => rfl
  | succ depth => rfl

theorem readEntry_close (value : List Char → Option (Term × List Char)) (cs : List Char) :
    readEntry value ('\x7d' :: cs) = none := rfl

/-- A reader of values gives a reader of entries. -/
theorem readEntry_pairChars {value : List Char → Option (Term × List Char)} {e : String × Term}
    {rest : List Char} (h : value (e.2.chars ++ rest) = some (e.2, rest)) :
    readEntry value (pairChars e ++ rest) = some (e, rest) := by
  have hcolon : ∀ c, (':' :: ' ' :: (e.2.chars ++ rest)).head? = some c →
      Literal.isKeyPart c = false := by
    rintro _ ⟨⟩
    rfl
  rw [pairChars, List.append_assoc, readEntry, List.cons_append, List.cons_append,
    readKey_keyChars _ hcolon]
  exact congrArg (Option.map fun (t, rest) => ((e.1, t), rest)) h

theorem readTerm_of_sign {c : Char} (h : c = '-' ∨ c.isDigit = true) (depth : Nat)
    (cs : List Char) : readTerm (depth + 1) (c :: cs) = readPlain (c :: cs) := by
  rw [readTerm]
  -- the other characters that a term can start with are neither
  all_goals
    rintro rest e
    obtain rfl := (List.cons.inj e).1
    revert h; decide

/-- **A term is read as it was written**, whatever follows that does not continue
    a number, if the depth is at least its length. -/
theorem readTerm_chars {depth : Nat} {t : Term} (h : Readable t) (hd : t.chars.length ≤ depth)
    {rest : List Char} (hr : PlainNumber.Ends rest) :
    readTerm depth (t.chars ++ rest) = some (t, rest) := by
  -- the depth bounds the length, so every term inside brackets has a smaller one
  induction depth generalizing t rest with
  | zero => exact absurd (List.length_eq_zero_iff.1 (Nat.le_zero.1 hd)) h.chars_ne_nil
  | succ depth ih =>
    cases h with
    | null => rfl
    | bool b => cases b <;> rfl
    | nan => rfl
    | infinity negative => cases negative <;> rfl
    | number d =>
      have hread := readPlain_decimal d hr
      have hchars : (number d.text).chars = d.chars := String.toList_ofList
      obtain ⟨c, cs, hc, hsign⟩ := d.exists_chars_eq_cons
      rw [hchars]
      rw [hc, List.cons_append] at hread ⊢
      rw [readTerm_of_sign hsign, hread]
    | string s =>
      rw [chars, quoted, List.cons_append, List.append_assoc, readTerm, List.singleton_append,
        readQuoted_escaped, Option.map_some]
      simp only [String.ofList_toList]
    | @list items h =>
      rw [chars, itemChars_eq_map] at hd ⊢
      have hitem : ∀ t ∈ items, ∀ rest, PlainNumber.Ends rest →
          readTerm depth (t.chars ++ rest) = some (t, rest) := by
        intro t ht rest hr
        have := length_le_separated (List.mem_map_of_mem (f := chars) ht)
        simp only [List.length_cons, List.length_append] at hd
        exact ih (h t ht) (by omega) hr
      have hends : PlainNumber.Ends (']' :: rest) := PlainNumber.ends_cons (by decide) rest
      rw [List.cons_append, List.append_assoc, List.singleton_append, readTerm,
        readBracket_separated hitem hends (by decide) (readTerm_close depth)]
      rfl
    | @record entries h =>
      rw [chars, entryChars_eq_map] at hd ⊢
      have hitem : ∀ e ∈ entries, ∀ rest, PlainNumber.Ends rest →
          readEntry (readTerm depth) (pairChars e ++ rest) = some (e, rest) := by
        intro e he rest hr
        have := length_le_separated (List.mem_map_of_mem (f := pairChars) he)
        simp only [List.length_cons, List.length_append, pairChars] at hd this
        exact readEntry_pairChars (ih (h e he) (by omega) hr)
      have hends : PlainNumber.Ends ('\x7d' :: rest) := PlainNumber.ends_cons (by decide) rest
      rw [List.cons_append, List.append_assoc, List.singleton_append, readTerm,
        readBracket_separated hitem hends (by decide) (readEntry_close _)]
      rfl
    | date n => exact readPlain_date n rest

theorem read_chars {t : Term} (h : Readable t) : read t.chars = some (t, []) := by
  have := readTerm_chars h (Nat.le_refl _) PlainNumber.ends_nil
  rwa [List.append_nil] at this

end Term

end ScriptLiteral
