/-
  Script literals — reading JSON text.

  A value may have blanks in front: space, tab, line feed, carriage return.
  Brackets nest to a fixed depth.

  * `Reader` is a reader that takes at least one character when it succeeds, so
    a loop over items ends;
  * `readItems` and `readMembers` take what stands in an array or object behind
    its opening bracket, with a reader of the values in it;
  * `readNested` is the reader of a value from a reader of the values nested in
    it, and `readValue` its iteration up to a depth;
  * `Json.parse` reads a whole text.
-/
import ScriptLiteral.Json.Number
import ScriptLiteral.Json.Quoted

namespace ScriptLiteral

namespace Json

/-! ## Readers -/

/-- A reader: from a text to a result and the text left, which is shorter. -/
structure Reader (α : Type) where
  run : List Char → Except Failure (α × List Char)
  shorter : ∀ {s : List Char} {r : α × List Char}, run s = .ok r → r.2.length < s.length

/-- The characters that may stand between tokens. -/
def isBlank (c : Char) : Bool := c == ' ' || c == '\t' || c == '\n' || c == '\r'

/-- Drop the blanks in front of a text. -/
def skipBlanks (text : List Char) : List Char := text.dropWhile isBlank

theorem length_skipBlanks_le (s : List Char) : (skipBlanks s).length ≤ s.length :=
  (List.dropWhile_sublist _).length_le

/-- Take a word. -/
def readWord : List Char → List Char → Except Failure (List Char)
  | [], rest => .ok rest
  | _ :: _, [] => .error (.atEnd .endInValue)
  | w :: word, c :: rest =>
    if c = w then readWord word rest else .error (.atByte .expectedWord (c :: rest))

/-- Take a number whose sign has been taken. -/
def readNumber (negative : Bool) (text : List Char) : Except Failure (Number × List Char) :=
  match Numeral.read negative text with
  | .error failure => .error failure
  | .ok (numeral, rest) =>
    match numeral.number with
    | .ok n => .ok (n, rest)
    | .error unread => .error (.before .numberOutOfRange (unread ++ rest))

/-! ## Arrays -/

section
variable {α : Type} (item : Reader α)

/-- Take the items of an array after the first, and its closing bracket. -/
def readMoreItems (text : List Char) : Except Failure (List α × List Char) :=
  match _ : skipBlanks text with
  | [] => .error (.atEnd .endInArray)
  | ']' :: rest => .ok ([], rest)
  | ',' :: rest =>
    match skipBlanks rest with
    | ']' :: rest => .error (.atByte .trailingComma (']' :: rest))
    | _ =>
      match _ : item.run rest with
      | .error failure => .error failure
      | .ok (a, rest) =>
        match readMoreItems rest with
        | .error failure => .error failure
        | .ok (as, rest) => .ok (a :: as, rest)
  | c :: rest => .error (.atByte .expectedArrayEnd (c :: rest))
termination_by text.length
decreasing_by
  have h₁ := length_skipBlanks_le text
  have h₂ := item.shorter ‹_›
  simp_all only [List.length_cons]
  omega

/-- Take the items of an array and its closing bracket. -/
def readItems (text : List Char) : Except Failure (List α × List Char) :=
  match skipBlanks text with
  | [] => .error (.atEnd .endInArray)
  | ']' :: rest => .ok ([], rest)
  | _ =>
    match item.run text with
    | .error failure => .error failure
    | .ok (a, rest) =>
      match readMoreItems item rest with
      | .error failure => .error failure
      | .ok (as, rest) => .ok (a :: as, rest)

theorem readMoreItems_shorter {s : List Char} {r : List α × List Char}
    (h : readMoreItems item s = .ok r) : r.2.length < s.length := by
  have hb := length_skipBlanks_le s
  fun_induction readMoreItems item s generalizing r with
  | case1 => nomatch h
  | case2 s rest hs => cases h; simp_all only [List.length_cons]; omega
  | case3 => nomatch h
  | case4 => nomatch h
  | case5 => nomatch h
  | case6 s rest hs a rest' ha as rest'' hm _ ih =>
    cases h
    have h₁ := item.shorter ha
    have h₂ := ih hm (length_skipBlanks_le _)
    simp_all only [List.length_cons]
    omega
  | case7 => nomatch h

theorem readItems_shorter {s : List Char} {r : List α × List Char}
    (h : readItems item s = .ok r) : r.2.length < s.length := by
  have hb := length_skipBlanks_le s
  unfold readItems at h
  split at h
  · nomatch h
  · next hs => cases h; simp_all only [List.length_cons]; omega
  · split at h
    · nomatch h
    · next ha =>
      split at h
      · nomatch h
      · next hm =>
        cases h
        have h₁ := readMoreItems_shorter item hm
        have h₂ := item.shorter ha
        exact Nat.lt_trans h₁ h₂

/-! ## Objects -/

/-- Take a member whose opening quote has been taken: key, colon, value. -/
def readMember (text : List Char) : Except Failure ((String × α) × List Char) :=
  match readString text with
  | .error failure => .error failure
  | .ok (key, rest) =>
    match skipBlanks rest with
    | [] => .error (.atEnd .endInObject)
    | ':' :: rest =>
      match item.run rest with
      | .error failure => .error failure
      | .ok (a, rest) => .ok ((String.ofList key, a), rest)
    | c :: rest => .error (.atByte .expectedColon (c :: rest))

theorem readMember_shorter {s : List Char} {r : (String × α) × List Char}
    (h : readMember item s = .ok r) : r.2.length < s.length := by
  unfold readMember at h
  split at h
  · nomatch h
  · next key rest hk =>
    have h₁ := readString_shorter hk
    have h₂ := length_skipBlanks_le rest
    split at h
    · nomatch h
    · next hs =>
      split at h
      · nomatch h
      · next ha =>
        cases h
        have h₃ := item.shorter ha
        simp_all only [List.length_cons]
        omega
    · nomatch h

/-- Take the members of an object after the first, and its closing bracket. -/
def readMoreMembers (text : List Char) : Except Failure (List (String × α) × List Char) :=
  match _ : skipBlanks text with
  | [] => .error (.atEnd .endInObject)
  | '\x7d' :: rest => .ok ([], rest)
  | ',' :: rest =>
    match _ : skipBlanks rest with
    | [] => .error (.atEnd .endInValue)
    | '"' :: rest =>
      match _ : readMember item rest with
      | .error failure => .error failure
      | .ok (a, rest) =>
        match readMoreMembers rest with
        | .error failure => .error failure
        | .ok (as, rest) => .ok (a :: as, rest)
    | '\x7d' :: rest => .error (.atByte .trailingComma ('\x7d' :: rest))
    | c :: rest => .error (.atByte .keyNotString (c :: rest))
  | c :: rest => .error (.atByte .expectedObjectEnd (c :: rest))
termination_by text.length
decreasing_by
  next rest₁ h₁ _ h₂ h₃ =>
  have h₄ := length_skipBlanks_le text
  have h₅ := length_skipBlanks_le rest₁
  have h₆ := readMember_shorter item h₃
  simp_all only [List.length_cons]
  omega

/-- Take the members of an object and its closing bracket. -/
def readMembers (text : List Char) : Except Failure (List (String × α) × List Char) :=
  match skipBlanks text with
  | [] => .error (.atEnd .endInObject)
  | '\x7d' :: rest => .ok ([], rest)
  | '"' :: rest =>
    match readMember item rest with
    | .error failure => .error failure
    | .ok (a, rest) =>
      match readMoreMembers item rest with
      | .error failure => .error failure
      | .ok (as, rest) => .ok (a :: as, rest)
  | c :: rest => .error (.atByte .keyNotString (c :: rest))

theorem readMoreMembers_shorter {s : List Char} {r : List (String × α) × List Char}
    (h : readMoreMembers item s = .ok r) : r.2.length < s.length := by
  have hb := length_skipBlanks_le s
  fun_induction readMoreMembers item s generalizing r with
  | case1 => nomatch h
  | case2 s rest hs => cases h; simp_all only [List.length_cons]; omega
  | case3 => nomatch h
  | case4 => nomatch h
  | case5 => nomatch h
  | case6 s rest hs rest' hs' a rest'' ha as rest''' hm ih =>
    cases h
    have h₁ := readMember_shorter item ha
    have h₂ := ih hm (length_skipBlanks_le _)
    have h₃ := length_skipBlanks_le rest
    simp_all only [List.length_cons]
    omega
  | case7 => nomatch h
  | case8 => nomatch h
  | case9 => nomatch h

theorem readMembers_shorter {s : List Char} {r : List (String × α) × List Char}
    (h : readMembers item s = .ok r) : r.2.length < s.length := by
  have hb := length_skipBlanks_le s
  unfold readMembers at h
  split at h
  · nomatch h
  · next hs => cases h; simp_all only [List.length_cons]; omega
  · next hs =>
    split at h
    · nomatch h
    · next ha =>
      split at h
      · nomatch h
      · next hm =>
        cases h
        have h₁ := readMember_shorter item ha
        have h₂ := readMoreMembers_shorter item hm
        simp_all only [List.length_cons]
        omega
  · nomatch h

end

/-! ## Values -/

/-- What a reader finds, made into something else. -/
def mapResult {α β : Type} (f : α → β) :
    Except Failure (α × List Char) → Except Failure (β × List Char)
  | .ok (a, rest) => .ok (f a, rest)
  | .error failure => .error failure

/-- Take a value that starts right here; `nested` reads the values inside an
    array or object, and is absent where brackets may not nest any deeper. -/
def readToken (nested : Option (Reader Json)) : List Char → Except Failure (Json × List Char)
  | [] => .error (.atEnd .endInValue)
  | 'n' :: rest => (readWord ['u', 'l', 'l'] rest).map (.null, ·)
  | 't' :: rest => (readWord ['r', 'u', 'e'] rest).map (.bool true, ·)
  | 'f' :: rest => (readWord ['a', 'l', 's', 'e'] rest).map (.bool false, ·)
  | '"' :: rest => mapResult (.string ∘ String.ofList) (readString rest)
  | '-' :: rest => mapResult .number (readNumber true rest)
  | '[' :: rest =>
    match nested with
    | none => .error (.atByte .tooDeep ('[' :: rest))
    | some value => mapResult .array (readItems value rest)
  | '\x7b' :: rest =>
    match nested with
    | none => .error (.atByte .tooDeep ('\x7b' :: rest))
    | some value => mapResult (.object ∘ .ofList) (readMembers value rest)
  | c :: rest =>
    if c.isDigit then mapResult .number (readNumber false (c :: rest))
    else .error (.atByte .expectedValue (c :: rest))

theorem readWord_le {word s r : List Char} (h : readWord word s = .ok r) :
    r.length ≤ s.length := by
  induction word generalizing s with
  | nil => cases h; exact Nat.le_refl _
  | cons w word ih =>
    cases s with
    | nil => nomatch h
    | cons c s =>
      unfold readWord at h
      split at h
      · exact Nat.le_succ_of_le (ih h)
      · nomatch h

theorem readNumber_shorter {negative : Bool} {s : List Char} {r : Number × List Char}
    (h : readNumber negative s = .ok r) : r.2.length < s.length := by
  unfold readNumber at h
  split at h
  · nomatch h
  · next hn =>
    split at h
    · cases h; exact Numeral.read_shorter hn
    · nomatch h

theorem mapResult_eq_ok {α β : Type} {f : α → β} {x : Except Failure (α × List Char)}
    {r : β × List Char} (h : mapResult f x = .ok r) : ∃ a, x = .ok (a, r.2) ∧ f a = r.1 := by
  unfold mapResult at h
  split at h
  · cases h; exact ⟨_, rfl, rfl⟩
  · nomatch h

theorem map_eq_ok {α : Type} {a : α} {x : Except Failure (List Char)} {r : α × List Char}
    (h : x.map (a, ·) = .ok r) : x = .ok r.2 ∧ a = r.1 := by
  cases x with
  | error e => nomatch h
  | ok s => cases h; exact ⟨rfl, rfl⟩

theorem readToken_shorter {nested : Option (Reader Json)} {s : List Char}
    {r : Json × List Char} (h : readToken nested s = .ok r) : r.2.length < s.length := by
  unfold readToken at h
  split at h
  · nomatch h
  · exact Nat.lt_succ_of_le (readWord_le (map_eq_ok h).1)
  · exact Nat.lt_succ_of_le (readWord_le (map_eq_ok h).1)
  · exact Nat.lt_succ_of_le (readWord_le (map_eq_ok h).1)
  · obtain ⟨a, ha, -⟩ := mapResult_eq_ok h
    exact Nat.lt_succ_of_lt (readString_shorter ha)
  · obtain ⟨a, ha, -⟩ := mapResult_eq_ok h
    exact Nat.lt_succ_of_lt (readNumber_shorter ha)
  · split at h
    · nomatch h
    · obtain ⟨a, ha, -⟩ := mapResult_eq_ok h
      exact Nat.lt_succ_of_lt (readItems_shorter _ ha)
  · split at h
    · nomatch h
    · obtain ⟨a, ha, -⟩ := mapResult_eq_ok h
      exact Nat.lt_succ_of_lt (readMembers_shorter _ ha)
  · split at h
    · obtain ⟨a, ha, -⟩ := mapResult_eq_ok h
      exact readNumber_shorter ha
    · nomatch h

/-- The reader of a value with blanks in front. -/
def readNested (nested : Option (Reader Json)) : Reader Json where
  run text := readToken nested (skipBlanks text)
  shorter h := Nat.lt_of_lt_of_le (readToken_shorter h) (length_skipBlanks_le _)

/-- The reader of values whose brackets nest at most `depth` deep. -/
def readValue : (depth : Nat) → Reader Json
  | 0 => readNested none
  | depth + 1 => readNested (some (readValue depth))

/-- The number of brackets that may be open at once. -/
def greatestDepth : Nat := 127

/-- Take a value and the blanks around it, up to the end of the text. -/
def readText (text : List Char) : Except Failure Json :=
  match (readValue greatestDepth).run text with
  | .error failure => .error failure
  | .ok (value, rest) =>
    match skipBlanks rest with
    | [] => .ok value
    | c :: rest => .error (.atByte .trailingCharacters (c :: rest))

/-- Read a JSON text. -/
def parse (text : String) : Except Error Json :=
  match readText text.toList with
  | .ok value => .ok value
  | .error failure => .error (.ofFailure text.toList failure)

end Json

end ScriptLiteral
