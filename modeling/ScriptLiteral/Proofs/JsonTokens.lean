/-
  Script literals — strings and numbers are read as they are written.

  A string is taken as its characters whichever way each of them is written, and
  a numeral as its parts.  Every lemma allows any text behind what is taken; a
  numeral must not be continued by it.

  * `skipBlanks_append`: blanks are dropped;
  * `readUnicode_unit` and `readUnicode_units`: a character is taken by its unit or
    by its two units;
  * `readString_spells` is the step from one character to the next, and
    `readString_chars` takes a whole string;
  * `EndsNumber` says of a text that it does not continue a numeral;
  * `read_numeralTexts` takes a numeral, and `readNumber_numeralTexts` its number.
-/
import ScriptLiteral.Json.Reader
import ScriptLiteral.Proofs.JsonText

namespace ScriptLiteral

namespace Json

/-! ## Blanks -/

theorem isBlank_of_mem_blanks {ws : List Char} (h : ws ∈ blanks) : ∀ c ∈ ws, isBlank c = true := by
  intro c hc
  have hmem : c ∈ [' ', '\t', '\n', '\r'] := h c hc
  simp only [List.mem_cons, List.not_mem_nil, or_false] at hmem
  rcases hmem with rfl | rfl | rfl | rfl <;> rfl

theorem skipBlanks_append {ws : List Char} (h : ws ∈ blanks) (rest : List Char) :
    skipBlanks (ws ++ rest) = skipBlanks rest :=
  List.dropWhile_append_of_pos (isBlank_of_mem_blanks h)

theorem skipBlanks_cons {c : Char} (h : isBlank c = false) (rest : List Char) :
    skipBlanks (c :: rest) = c :: rest := by
  rw [skipBlanks, List.dropWhile_cons, h]
  rfl

theorem mem_padded {texts : Language Char} {cs : List Char} :
    cs ∈ padded texts ↔
      ∃ ws ∈ blanks, ∃ text ∈ texts, ∃ ws' ∈ blanks, cs = ws ++ (text ++ ws') := by
  constructor
  · intro h
    obtain ⟨front, hfront, ws', hws', rfl⟩ := Language.mem_mul.1 h
    obtain ⟨ws, hws, text, htext, rfl⟩ := Language.mem_mul.1 hfront
    exact ⟨ws, hws, text, htext, ws', hws', List.append_assoc ..⟩
  · rintro ⟨ws, hws, text, htext, ws', hws', rfl⟩
    rw [← List.append_assoc]
    exact Language.append_mem_mul (Language.append_mem_mul hws htext) hws'

theorem mem_padded_of_mem {texts : Language Char} {cs : List Char} (h : cs ∈ texts) :
    cs ∈ padded texts :=
  mem_padded.2 ⟨[], nil_mem_blanks, cs, h, [], nil_mem_blanks, (List.append_nil cs).symm⟩

theorem mem_enclosed {a b : Char} {texts : Language Char} {cs : List Char} :
    cs ∈ enclosed a b texts ↔ ∃ inside ∈ texts, cs = a :: (inside ++ [b]) := by
  constructor
  · intro h
    obtain ⟨front, hfront, _, rfl, rfl⟩ := Language.mem_mul.1 h
    obtain ⟨_, rfl, inside, hinside, rfl⟩ := Language.mem_mul.1 hfront
    exact ⟨inside, hinside, rfl⟩
  · rintro ⟨inside, hinside, rfl⟩
    exact Language.append_mem_mul (Language.append_mem_mul (rfl : [a] ∈ _) hinside) rfl

/-! ## Strings -/

theorem hexValue?_of_isHexDigit {n : Nat} (hn : n < 0x10) {c : Char} (h : IsHexDigit n c) :
    hexValue? c = some n := by
  rcases h with rfl | rfl
  · revert n; decide
  · revert n; decide

theorem hexEscape_append {unit : Nat} (hunit : unit < 0x10000) {ds : List Char}
    (h : ds ∈ unitTexts unit) (rest : List Char) :
    hexEscape (ds ++ rest) = .ok (unit, rest) := by
  obtain ⟨a, b, c, d, rfl, ha, hb, hc, hd⟩ := h
  have hvalue : hexUnit? a b c d = some unit := by
    rw [hexUnit?, hexValue?_of_isHexDigit (by omega) ha, hexValue?_of_isHexDigit (by omega) hb,
      hexValue?_of_isHexDigit (by omega) hc, hexValue?_of_isHexDigit (by omega) hd]
    refine congrArg some ?_
    show ((unit / 0x1000 * 16 + unit / 0x100 % 0x10) * 16 + unit / 0x10 % 0x10) * 16 +
      unit % 0x10 = unit
    omega
  simp only [List.cons_append, List.nil_append, hexEscape, hvalue]

theorem toNat_valid (c : Char) :
    c.toNat < 0xD800 ∨ (0xDFFF < c.toNat ∧ c.toNat < 0x110000) := c.valid

/-- A character is taken by its unit, which is no half of a pair. -/
theorem readUnicode_unit {c : Char} (hc : c.toNat < 0x10000) {ds : List Char}
    (h : ds ∈ unitTexts c.toNat) (rest : List Char) :
    readUnicode (ds ++ rest) = .ok (c, rest) := by
  have hvalid := toNat_valid c
  have htrailing : ¬ IsTrailing c.toNat := by
    unfold IsTrailing
    omega
  have hleading : ¬ IsLeading c.toNat := by
    unfold IsLeading
    omega
  rw [readUnicode, hexEscape_append hc h]
  simp only [bind, Except.bind, if_neg htrailing, if_neg hleading, Char.ofNat_toNat]
  rfl

theorem readUnicode_units {u v : Nat} (hu : IsLeading u) (hv : IsTrailing v) {ds es : List Char}
    (hds : ds ∈ unitTexts u) (hes : es ∈ unitTexts v) (rest : List Char) :
    readUnicode (ds ++ '\\' :: 'u' :: (es ++ rest)) = .ok (pairChar u v, rest) := by
  have hu' : u < 0x10000 ∧ ¬ IsTrailing u := by
    unfold IsLeading at hu
    unfold IsTrailing
    omega
  have hv' : v < 0x10000 := by
    unfold IsTrailing at hv
    omega
  rw [readUnicode, hexEscape_append hu'.1 hds]
  simp only [bind, Except.bind, if_neg hu'.2, if_pos hu]
  rw [readTrailing, hexEscape_append hv' hes]
  simp only [bind, Except.bind, if_pos hv]
  rfl

theorem pairChar_units {c : Char} (hc : 0x10000 ≤ c.toNat) :
    IsLeading (leadingUnit c) ∧ IsTrailing (trailingUnit c) ∧
      pairChar (leadingUnit c) (trailingUnit c) = c := by
  have hvalid := toNat_valid c
  have hnat : (leadingUnit c - 0xD800) * 0x400 + (trailingUnit c - 0xDC00) + 0x10000 =
      c.toNat := by
    unfold leadingUnit trailingUnit
    omega
  refine ⟨?_, ?_, ?_⟩
  · unfold IsLeading leadingUnit
    omega
  · unfold IsTrailing trailingUnit
    omega
  · rw [pairChar, hnat, Char.ofNat_toNat]

theorem readString_escape {text rest : List Char} {c : Char}
    (h : readEscape text = .ok (c, rest)) :
    readString ('\\' :: text) = mapResult (c :: ·) (readString rest) := by
  rw [readString]
  split
  · next he => rw [h] at he; cases he
  · next he =>
    rw [h] at he
    cases he
    cases readString rest <;> rfl

theorem readEscape_short {c sign : Char} (h : (c, sign) ∈ shortEscapes) (rest : List Char) :
    readEscape (sign :: rest) = .ok (c, rest) := by
  simp only [shortEscapes, List.mem_cons, Prod.mk.injEq, List.not_mem_nil, or_false] at h
  rcases h with ⟨rfl, rfl⟩ | ⟨rfl, rfl⟩ | ⟨rfl, rfl⟩ | ⟨rfl, rfl⟩ | ⟨rfl, rfl⟩ | ⟨rfl, rfl⟩ |
    ⟨rfl, rfl⟩ | ⟨rfl, rfl⟩ <;> rfl

/-- **A character is taken, however it is written.** -/
theorem readString_spells {c : Char} {cs : List Char} (h : Spells c cs) (rest : List Char) :
    readString (cs ++ rest) = mapResult (c :: ·) (readString rest) := by
  cases h with
  | raw control quote backslash =>
    rw [List.singleton_append, readString]
    · rw [if_neg (Nat.not_lt.2 control)]
      cases readString rest <;> rfl
    · exact quote
    · exact backslash
  | short h => exact readString_escape (readEscape_short h rest)
  | unit h hds => exact readString_escape (readUnicode_unit h hds rest)
  | pair h hds hes =>
    obtain ⟨hleading, htrailing, hpair⟩ := pairChar_units h
    have hunits := readUnicode_units hleading htrailing hds hes rest
    rw [hpair] at hunits
    simp only [List.cons_append, List.append_assoc]
    exact readString_escape hunits

/-- **A string is taken, however its characters are written.** -/
theorem readString_chars {s cs : List Char} (h : cs ∈ (s.map charTexts).prod)
    (rest : List Char) : readString (cs ++ '"' :: rest) = .ok (s, rest) := by
  induction s generalizing cs with
  | nil =>
    obtain rfl : cs = [] := h
    rw [List.nil_append, readString]
  | cons c s ih =>
    rw [List.map_cons, List.prod_cons] at h
    obtain ⟨text, htext, cs, hcs, rfl⟩ := Language.mem_mul.1 h
    rw [List.append_assoc, readString_spells htext, ih hcs]
    rfl

/-! ## Numbers -/

/-- A text that does not continue digits. -/
def EndsDigits (rest : List Char) : Prop := ∀ c, rest.head? = some c → c.isDigit = false

/-- A text that does not continue a numeral: it starts neither with a digit, nor
    with a point, nor with the mark of an exponent. -/
def EndsNumber (rest : List Char) : Prop :=
  PlainNumber.Ends rest ∧ ∀ c, rest.head? = some c → c ≠ 'e' ∧ c ≠ 'E'

theorem endsDigits_of_ends {rest : List Char} (h : PlainNumber.Ends rest) : EndsDigits rest :=
  fun c hc => (h c hc).1

theorem takeWhile_digits {ds rest : List Char} (hds : ∀ c ∈ ds, c.isDigit = true)
    (hrest : EndsDigits rest) :
    (ds ++ rest).takeWhile Char.isDigit = ds ∧ (ds ++ rest).dropWhile Char.isDigit = rest :=
  Prod.mk.inj (PlainNumber.takeDigits_append hds hrest)

theorem readWhole_append {ds rest : List Char} (hds : CanonicalDigits ds)
    (hrest : EndsDigits rest) : Numeral.readWhole (ds ++ rest) = .ok (ds, rest) := by
  obtain ⟨c, ds, rfl⟩ := List.exists_cons_of_ne_nil hds.1
  obtain ⟨hc, htail⟩ := List.forall_mem_cons.1 hds.2.1
  obtain ⟨htake, hdrop⟩ := takeWhile_digits htail hrest
  rw [List.cons_append]
  unfold Numeral.readWhole
  split
  · next e => nomatch e
  · next d rest' e =>
    -- a leading zero is alone, so what comes next is behind the digits
    obtain rfl := (List.cons.inj e).1
    obtain rfl := (List.cons.inj (hds.2.2 rfl)).2
    obtain rfl : rest = d :: rest' := (List.cons.inj e).2
    rw [hrest d rfl]
    rfl
  · next d rest' _ e =>
    obtain ⟨rfl, rfl⟩ := List.cons.inj e
    rw [if_pos hc, htake, hdrop]

/-- A point and digits, or nothing if there are none. -/
def fractionChars (ds : List Char) : List Char := if ds = [] then [] else '.' :: ds

theorem endsDigits_fractionChars (ds : List Char) {rest : List Char}
    (hrest : PlainNumber.Ends rest) : EndsDigits (fractionChars ds ++ rest) := by
  unfold fractionChars
  split
  · exact endsDigits_of_ends hrest
  · rintro _ ⟨⟩
    rfl

theorem readFraction_append {ds rest : List Char} (hds : ∀ c ∈ ds, c.isDigit = true)
    (hrest : PlainNumber.Ends rest) :
    Numeral.readFraction (fractionChars ds ++ rest) = .ok (ds, rest) := by
  cases ds with
  | nil =>
    rw [fractionChars, if_pos rfl, List.nil_append]
    unfold Numeral.readFraction
    split
    · exact absurd rfl (hrest '.' rfl).2
    · exact absurd rfl (hrest '.' rfl).2
    · rfl
  | cons c ds =>
    obtain ⟨hc, htail⟩ := List.forall_mem_cons.1 hds
    obtain ⟨htake, hdrop⟩ := takeWhile_digits htail (endsDigits_of_ends hrest)
    rw [fractionChars, if_neg (List.cons_ne_nil c ds), List.cons_append, List.cons_append,
      Numeral.readFraction, if_pos hc, htake, hdrop]

theorem readExponentDigits_append (negative : Bool) {ds rest : List Char} (hne : ds ≠ [])
    (hds : ∀ c ∈ ds, c.isDigit = true) (hrest : EndsDigits rest) :
    Numeral.readExponentDigits negative (ds ++ rest) = .ok (⟨negative, ds⟩, rest) := by
  obtain ⟨c, ds, rfl⟩ := List.exists_cons_of_ne_nil hne
  obtain ⟨hc, htail⟩ := List.forall_mem_cons.1 hds
  obtain ⟨htake, hdrop⟩ := takeWhile_digits htail hrest
  rw [List.cons_append, Numeral.readExponentDigits, if_pos hc, htake, hdrop]

theorem readSignedExponent_of_isDigit {c : Char} (hc : c.isDigit = true) (text : List Char) :
    Numeral.readSignedExponent (c :: text) = Numeral.readExponentDigits false (c :: text) := by
  unfold Numeral.readSignedExponent
  split
  · next e => cases e; nomatch hc
  · next e => cases e; nomatch hc
  · rfl

theorem readSignedExponent_append {e : Exponent} {sign rest : List Char} (hne : e.digits ≠ [])
    (hds : ∀ c ∈ e.digits, c.isDigit = true)
    (hsign : sign ∈ (if e.negative then {['-']} else {[], ['+']} : Language Char))
    (hrest : EndsDigits rest) :
    Numeral.readSignedExponent (sign ++ (e.digits ++ rest)) = .ok (e, rest) := by
  obtain ⟨negative, ds⟩ := e
  have hdigits := fun negative => readExponentDigits_append negative hne hds hrest
  cases negative with
  | true =>
    obtain rfl : sign = ['-'] := hsign
    exact hdigits true
  | false =>
    obtain rfl | rfl : sign = [] ∨ sign = ['+'] := hsign
    · obtain ⟨c, ds, rfl⟩ := List.exists_cons_of_ne_nil hne
      have hc : c.isDigit = true := hds c (List.mem_cons_self ..)
      rw [List.nil_append, List.cons_append, readSignedExponent_of_isDigit hc]
      exact hdigits false
    · exact hdigits false

theorem ends_exponentTexts {e : Option Exponent} {cs rest : List Char}
    (hcs : cs ∈ exponentTexts e) (hrest : EndsNumber rest) : PlainNumber.Ends (cs ++ rest) := by
  cases e with
  | none =>
    obtain rfl : cs = [] := hcs
    exact hrest.1
  | some e =>
    obtain ⟨front, hfront, ds, -, rfl⟩ := Language.mem_mul.1 hcs
    obtain ⟨mark, hmark, sign, -, rfl⟩ := Language.mem_mul.1 hfront
    obtain rfl | rfl : mark = ['e'] ∨ mark = ['E'] := hmark
    · exact PlainNumber.ends_cons ⟨rfl, by decide⟩ _
    · exact PlainNumber.ends_cons ⟨rfl, by decide⟩ _

theorem readExponent_some_append {e : Exponent} {cs rest : List Char} (hne : e.digits ≠ [])
    (hds : ∀ c ∈ e.digits, c.isDigit = true) (hcs : cs ∈ exponentTexts (some e))
    (hrest : EndsDigits rest) : Numeral.readExponent (cs ++ rest) = .ok (some e, rest) := by
  obtain ⟨front, hfront, ds, rfl, rfl⟩ := Language.mem_mul.1 hcs
  obtain ⟨mark, hmark, sign, hsign, rfl⟩ := Language.mem_mul.1 hfront
  have hsigned := readSignedExponent_append hne hds hsign hrest
  obtain rfl | rfl : mark = ['e'] ∨ mark = ['E'] := hmark
  · simp only [List.append_assoc, List.cons_append, List.nil_append, Numeral.readExponent,
      true_or, if_true, hsigned]
    rfl
  · simp only [List.append_assoc, List.cons_append, List.nil_append, Numeral.readExponent,
      or_true, if_true, hsigned]
    rfl

theorem readExponent_append {e : Option Exponent} {cs rest : List Char}
    (he : ∀ e', e = some e' → e'.digits ≠ [] ∧ ∀ c ∈ e'.digits, c.isDigit = true)
    (hcs : cs ∈ exponentTexts e) (hrest : EndsNumber rest) :
    Numeral.readExponent (cs ++ rest) = .ok (e, rest) := by
  cases e with
  | none =>
    obtain rfl : cs = [] := hcs
    cases rest with
    | nil => rfl
    | cons c rest =>
      have hmark : ¬ (c = 'e' ∨ c = 'E') := not_or.2 (hrest.2 c rfl)
      rw [List.nil_append, Numeral.readExponent, if_neg hmark]
  | some e =>
    obtain ⟨hne, hds⟩ := he e rfl
    exact readExponent_some_append hne hds hcs (endsDigits_of_ends hrest.1)

/-- **A numeral is taken as it is written.**  Behind its sign it starts with a
    digit. -/
theorem read_numeralTexts {n : Numeral} (hn : n.Grammatical) {cs rest : List Char}
    (hcs : cs ∈ numeralTexts n) (hrest : EndsNumber rest) :
    ∃ c tail, c.isDigit = true ∧ cs = PlainNumber.signChars n.negative ++ c :: tail ∧
      Numeral.read n.negative (c :: tail ++ rest) = .ok (n, rest) := by
  obtain ⟨negative, whole, fraction, exponent⟩ := n
  obtain ⟨hwhole, hfraction, hexponent⟩ := hn
  dsimp only at hwhole hfraction hexponent ⊢
  obtain ⟨_, rfl, es, hes, rfl⟩ := Language.mem_mul.1 hcs
  have hends := ends_exponentTexts hes hrest
  have hread : Numeral.read negative (whole ++ (fractionChars fraction ++ (es ++ rest))) =
      .ok (⟨negative, whole, fraction, exponent⟩, rest) := by
    rw [Numeral.read, readWhole_append hwhole (endsDigits_fractionChars fraction hends)]
    simp only [bind, Except.bind, readFraction_append hfraction hends,
      readExponent_append hexponent hes hrest]
    rfl
  obtain ⟨c, tail, rfl⟩ := List.exists_cons_of_ne_nil hwhole.1
  refine ⟨c, tail ++ (fractionChars fraction ++ es), hwhole.2.1 c (List.mem_cons_self ..), ?_, ?_⟩
  · simp only [PlainNumber.chars, fractionChars, List.append_assoc, List.cons_append]
  · simpa only [List.cons_append, List.append_assoc] using hread

theorem readNumber_numeralTexts (t : Token) {cs rest : List Char}
    (hcs : cs ∈ numeralTexts t.numeral) (hrest : EndsNumber rest) :
    ∃ c tail, c.isDigit = true ∧ cs = PlainNumber.signChars t.numeral.negative ++ c :: tail ∧
      readNumber t.numeral.negative (c :: tail ++ rest) = .ok (t.number, rest) := by
  obtain ⟨c, tail, hc, e, hread⟩ := read_numeralTexts t.grammatical hcs hrest
  refine ⟨c, tail, hc, e, ?_⟩
  rw [readNumber, hread]
  simp only [t.inRange]

end Json

end ScriptLiteral
