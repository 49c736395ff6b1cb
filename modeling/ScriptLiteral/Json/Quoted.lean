/-
  Script literals — the strings of JSON.

  A string is read from behind its opening quote.  A backslash starts an escape:
  one of eight letters and signs, or `u` and four hexadecimal digits, which are a
  UTF-16 unit; a leading surrogate must be followed by the escape of a trailing
  one.  Control characters must be escaped.

  * `hexEscape` takes the four digits of a unit;
  * `readEscape` takes an escape whose backslash has been taken;
  * `readString` takes the characters of a string and its closing quote.
-/
import ScriptLiteral.Json.Error

namespace ScriptLiteral

namespace Json

/-! ## Units -/

/-- The value of a hexadecimal digit, of either case. -/
def hexValue? (c : Char) : Option Nat :=
  if c.isDigit then some (c.toNat - '0'.toNat)
  else if 'a' ≤ c ∧ c ≤ 'f' then some (c.toNat - 'a'.toNat + 10)
  else if 'A' ≤ c ∧ c ≤ 'F' then some (c.toNat - 'A'.toNat + 10)
  else none

/-- The unit of four hexadecimal digits. -/
def hexUnit? (a b c d : Char) : Option Nat := do
  let a ← hexValue? a
  let b ← hexValue? b
  let c ← hexValue? c
  let d ← hexValue? d
  return ((a * 16 + b) * 16 + c) * 16 + d

/-- The failure of a unit: four bytes are consumed before they are judged. -/
def unitFailure (rest : List Char) : Failure :=
  if byteCount rest < 4 then .atEnd .endInString else ⟨.invalidEscape, rest, 4⟩

/-- Take the four digits of a unit. -/
def hexEscape : List Char → Except Failure (Nat × List Char)
  | a :: b :: c :: d :: rest =>
    match hexUnit? a b c d with
    | some unit => .ok (unit, rest)
    | none => .error (unitFailure (a :: b :: c :: d :: rest))
  | rest => .error (unitFailure rest)

/-- A unit that starts a pair. -/
def IsLeading (unit : Nat) : Prop := 0xD800 ≤ unit ∧ unit ≤ 0xDBFF

/-- A unit that ends a pair. -/
def IsTrailing (unit : Nat) : Prop := 0xDC00 ≤ unit ∧ unit ≤ 0xDFFF

instance (unit : Nat) : Decidable (IsLeading unit) := inferInstanceAs (Decidable (_ ∧ _))

instance (unit : Nat) : Decidable (IsTrailing unit) := inferInstanceAs (Decidable (_ ∧ _))

/-- The character of a pair of surrogates. -/
def pairChar (leading trailing : Nat) : Char :=
  Char.ofNat ((leading - 0xD800) * 0x400 + (trailing - 0xDC00) + 0x10000)

/-! ## Escapes -/

/-- Take the escape of a trailing surrogate, which must follow a leading one. -/
def readTrailing (leading : Nat) : List Char → Except Failure (Char × List Char)
  | '\\' :: 'u' :: rest => do
    let (unit, rest) ← hexEscape rest
    if IsTrailing unit then return (pairChar leading unit, rest)
    else throw (.before .unpairedSurrogate rest)
  | ['\\'] => .error (.atEnd .endInString)
  | '\\' :: rest => .error (.atByte .endOfSurrogate rest)
  | [] => .error (.atEnd .endInString)
  | rest => .error (.atByte .endOfSurrogate rest)

/-- Take the digits of a character escape, and the escape after it if it is the
    first of a pair. -/
def readUnicode (text : List Char) : Except Failure (Char × List Char) := do
  let (unit, rest) ← hexEscape text
  if IsTrailing unit then throw (.before .unpairedSurrogate rest)
  else if IsLeading unit then readTrailing unit rest
  else return (Char.ofNat unit, rest)

/-- The character of an escape of one letter or sign. -/
def shortEscape? : Char → Option Char
  | '"' => some '"'
  | '\\' => some '\\'
  | '/' => some '/'
  | 'b' => some '\x08'
  | 'f' => some '\x0c'
  | 'n' => some '\n'
  | 'r' => some '\r'
  | 't' => some '\t'
  | _ => none

/-- Take an escape whose backslash has been taken. -/
def readEscape : List Char → Except Failure (Char × List Char)
  | [] => .error (.atEnd .endInString)
  | 'u' :: rest => readUnicode rest
  | c :: rest =>
    match shortEscape? c with
    | some d => .ok (d, rest)
    | none => .error (.atByte .invalidEscape (c :: rest))

/-! ## What is left is shorter -/

theorem hexEscape_le {s : List Char} {r : Nat × List Char} (h : hexEscape s = .ok r) :
    r.2.length ≤ s.length := by
  unfold hexEscape at h
  split at h
  · split at h
    · cases h; simp only [List.length_cons]; omega
    · nomatch h
  · nomatch h

theorem readTrailing_le {leading : Nat} {s : List Char} {r : Char × List Char}
    (h : readTrailing leading s = .ok r) : r.2.length ≤ s.length := by
  unfold readTrailing at h
  split at h
  · next rest =>
    cases hu : hexEscape rest with
    | error e => rw [hu] at h; nomatch h
    | ok u =>
      rw [hu] at h
      simp only [bind, Except.bind] at h
      have := hexEscape_le hu
      split at h
      · rw [← Except.ok.inj h]; simp only [List.length_cons]; omega
      · nomatch h
  all_goals nomatch h

theorem readUnicode_le {s : List Char} {r : Char × List Char}
    (h : readUnicode s = .ok r) : r.2.length ≤ s.length := by
  unfold readUnicode at h
  cases hu : hexEscape s with
  | error e => rw [hu] at h; nomatch h
  | ok u =>
    rw [hu] at h
    simp only [bind, Except.bind] at h
    have := hexEscape_le hu
    split at h
    · nomatch h
    · split at h
      · exact Nat.le_trans (readTrailing_le h) this
      · cases h; exact this

theorem readEscape_shorter {s : List Char} {r : Char × List Char}
    (h : readEscape s = .ok r) : r.2.length < s.length := by
  unfold readEscape at h
  split at h
  · nomatch h
  · exact Nat.lt_succ_of_le (readUnicode_le h)
  · split at h
    · cases h; exact Nat.lt_succ_self _
    · nomatch h

/-! ## Strings -/

/-- Take the characters of a string up to its closing quote, and the quote. -/
def readString : (text : List Char) → Except Failure (List Char × List Char)
  | [] => .error (.atEnd .endInString)
  | '"' :: rest => .ok ([], rest)
  | '\\' :: rest =>
    match _ : readEscape rest with
    | .error failure => .error failure
    | .ok (c, rest') => do
      let (cs, rest'') ← readString rest'
      return (c :: cs, rest'')
  | c :: rest =>
    if c.toNat < 0x20 then .error (.atByte .controlCharacter (c :: rest))
    else do
      let (cs, rest') ← readString rest
      return (c :: cs, rest')
termination_by text => text.length
decreasing_by
  · next h => exact Nat.lt_succ_of_lt (readEscape_shorter h)
  · exact Nat.lt_succ_self _

theorem readString_shorter {s : List Char} {r : List Char × List Char}
    (h : readString s = .ok r) : r.2.length < s.length := by
  fun_induction readString s generalizing r with
  | case1 => nomatch h
  | case2 rest => cases h; exact Nat.lt_succ_self _
  | case3 => nomatch h
  | case4 rest c rest' he ih =>
    cases hs : readString rest' with
    | error e => rw [hs] at h; nomatch h
    | ok q =>
      rw [hs] at h
      cases h
      have h₁ := ih hs
      have h₂ := readEscape_shorter he
      simp only [List.length_cons] at *
      omega
  | case5 => nomatch h
  | case6 c rest _ _ _ ih =>
    cases hs : readString rest with
    | error e => rw [hs] at h; nomatch h
    | ok q =>
      rw [hs] at h
      cases h
      have h₁ := ih hs
      exact Nat.lt_succ_of_lt h₁

end Json

end ScriptLiteral
