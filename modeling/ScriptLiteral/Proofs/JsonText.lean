/-
  Script literals — the texts of JSON.

  A document is what a JSON text says: an object is the list of its members as
  they stand, keys repeated or not, and a number is the numeral that is written.
  It has many texts: blanks may stand between any two tokens, and a character of
  a string may be written in several ways.  The texts of a document are a
  language, put together from the languages of its parts.

  * `blanks`, `padded`, `enclosed` and `listed` are the layout;
  * `Spells c cs` says that `cs` is a way of writing the character `c` in a
    string, and `stringTexts` are the texts of a string;
  * `numeralTexts` are the texts of a numeral, and `Token` is a numeral of the
    grammar whose number is in range;
  * `Document` is a document, with its value (`Document.value`), its texts
    (`Document.texts`) and the depth of its brackets (`Document.depth`);
  * `Document.exists_mem_texts`: every document has a text.
-/
import Mathlib
import ScriptLiteral.Json.Basic
import ScriptLiteral.Json.Number
import ScriptLiteral.Proofs.PlainNumber

namespace ScriptLiteral

namespace Json

/-! ## Layout -/

/-- Blanks: spaces, tabs, line feeds and carriage returns. -/
def blanks : Language Char := {cs | ∀ c ∈ cs, c ∈ [' ', '\t', '\n', '\r']}

/-- Texts with blanks around them. -/
def padded (texts : Language Char) : Language Char := blanks * texts * blanks

/-- Texts between two characters. -/
def enclosed (first last : Char) (texts : Language Char) : Language Char :=
  {[first]} * texts * {[last]}

/-- Texts of each language in order, with blanks around each and a comma in front
    of it. -/
def commaTexts (items : List (Language Char)) : Language Char :=
  (items.map fun item => {[',']} * padded item).prod

/-- What stands between two brackets: texts of each language in order, with a
    comma between any two, and blanks. -/
def listed : List (Language Char) → Language Char
  | [] => blanks
  | item :: items => padded item * commaTexts items

/-! ## Strings -/

/-- The characters that can be written as a backslash and a letter or sign, with
    the letter or sign. -/
def shortEscapes : List (Char × Char) :=
  [('"', '"'), ('\\', '\\'), ('/', '/'), ('\x08', 'b'), ('\x0c', 'f'), ('\n', 'n'), ('\r', 'r'),
    ('\t', 't')]

/-- The character is the hexadecimal digit of a number, in either case. -/
def IsHexDigit (n : Nat) (c : Char) : Prop := c = Nat.digitChar n ∨ c = (Nat.digitChar n).toUpper

/-- The four hexadecimal digits of a unit of 16 bits. -/
def unitTexts (unit : Nat) : Language Char :=
  {cs | ∃ a b c d, cs = [a, b, c, d] ∧ IsHexDigit (unit / 0x1000) a ∧
    IsHexDigit (unit / 0x100 % 0x10) b ∧ IsHexDigit (unit / 0x10 % 0x10) c ∧
    IsHexDigit (unit % 0x10) d}

/-- The first of the two units of a character above 16 bits. -/
def leadingUnit (c : Char) : Nat := 0xD800 + (c.toNat - 0x10000) / 0x400

/-- The second of the two units of a character above 16 bits. -/
def trailingUnit (c : Char) : Nat := 0xDC00 + (c.toNat - 0x10000) % 0x400

/-- The ways of writing a character in a string. -/
inductive Spells : Char → List Char → Prop where
  /-- As it is; control characters, quotes and backslashes cannot be. -/
  | raw {c : Char} (control : 0x20 ≤ c.toNat) (quote : c ≠ '"') (backslash : c ≠ '\\') :
    Spells c [c]
  /-- By a letter or sign behind a backslash. -/
  | short {c sign : Char} (h : (c, sign) ∈ shortEscapes) : Spells c ['\\', sign]
  /-- By its unit. -/
  | unit {c : Char} {ds : List Char} (h : c.toNat < 0x10000) (hds : ds ∈ unitTexts c.toNat) :
    Spells c ('\\' :: 'u' :: ds)
  /-- By its two units. -/
  | pair {c : Char} {ds es : List Char} (h : 0x10000 ≤ c.toNat)
    (hds : ds ∈ unitTexts (leadingUnit c)) (hes : es ∈ unitTexts (trailingUnit c)) :
    Spells c ('\\' :: 'u' :: (ds ++ '\\' :: 'u' :: es))

/-- The texts of a character in a string. -/
def charTexts (c : Char) : Language Char := {cs | Spells c cs}

/-- The texts of a string: its characters between quotes. -/
def stringTexts (s : String) : Language Char :=
  enclosed '"' '"' (s.toList.map charTexts).prod

/-! ## Numbers -/

/-- The texts of an exponent: a mark of either case and a sign, which may be left
    out if it is not negative. -/
def exponentTexts : Option Exponent → Language Char
  | none => 1
  | some e => {['e'], ['E']} * (if e.negative then {['-']} else {[], ['+']}) * {e.digits}

/-- The texts of a numeral. -/
def numeralTexts (n : Numeral) : Language Char :=
  {(PlainNumber.mk n.negative n.whole n.fraction).chars} * exponentTexts n.exponent

/-- The numerals of the grammar: digits everywhere, at least one in front of the
    point and in an exponent, and no zero in front of another whole digit. -/
structure Numeral.Grammatical (n : Numeral) : Prop where
  whole : CanonicalDigits n.whole
  fraction : ∀ c ∈ n.fraction, c.isDigit = true
  exponent : ∀ e, n.exponent = some e → e.digits ≠ [] ∧ ∀ c ∈ e.digits, c.isDigit = true

/-- A numeral of the grammar with the number that it stands for. -/
structure Token where
  numeral : Numeral
  grammatical : numeral.Grammatical
  number : Number
  inRange : numeral.number = .ok number

/-! ## Documents -/

/-- What a JSON text says. -/
inductive Document where
  | null
  | bool (b : Bool)
  | number (t : Token)
  | string (s : String)
  | array (items : List Document)
  | object (members : List (String × Document))

namespace Document

mutual

/-- The value of a document.  The members of an object are inserted one after the
    other. -/
def value : Document → Value
  | null => .null
  | bool b => .bool b
  | number t => t.number.toValue
  | string s => .string s
  | array items => .list (itemValues items)
  | object members => .map (.ofList (memberValues members))

/-- The values of items. -/
def itemValues : List Document → List Value
  | [] => []
  | d :: ds => value d :: itemValues ds

/-- The values of members, under their keys. -/
def memberValues : List (String × Document) → List (String × Value)
  | [] => []
  | (k, d) :: rest => (k, value d) :: memberValues rest

end

mutual

/-- How deep brackets nest in a document. -/
def depth : Document → Nat
  | array items => itemDepth items + 1
  | object members => memberDepth members + 1
  | null => 0
  | bool _ => 0
  | number _ => 0
  | string _ => 0

/-- How deep brackets nest in items. -/
def itemDepth : List Document → Nat
  | [] => 0
  | d :: ds => max (depth d) (itemDepth ds)

/-- How deep brackets nest in members. -/
def memberDepth : List (String × Document) → Nat
  | [] => 0
  | (_, d) :: rest => max (depth d) (memberDepth rest)

end

mutual

/-- The texts of a document, without blanks around it. -/
def texts : Document → Language Char
  | null => {['n', 'u', 'l', 'l']}
  | bool b => {if b then ['t', 'r', 'u', 'e'] else ['f', 'a', 'l', 's', 'e']}
  | number t => numeralTexts t.numeral
  | string s => stringTexts s
  | array items => enclosed '[' ']' (listed (itemTexts items))
  | object members => enclosed '\x7b' '\x7d' (listed (memberTexts members))

/-- The texts of each item. -/
def itemTexts : List Document → List (Language Char)
  | [] => []
  | d :: ds => texts d :: itemTexts ds

/-- The texts of each member: key, colon, value. -/
def memberTexts : List (String × Document) → List (Language Char)
  | [] => []
  | (k, d) :: rest => stringTexts k * padded {[':']} * texts d :: memberTexts rest

end

end Document

/-! ## Every document has a text -/

theorem nil_mem_blanks : [] ∈ blanks := nofun

theorem exists_mem_mul {l m : Language Char} (hl : ∃ cs, cs ∈ l) (hm : ∃ cs, cs ∈ m) :
    ∃ cs, cs ∈ l * m := by
  obtain ⟨a, ha⟩ := hl
  obtain ⟨b, hb⟩ := hm
  exact ⟨a ++ b, Language.append_mem_mul ha hb⟩

theorem exists_mem_prod {ls : List (Language Char)} (h : ∀ l ∈ ls, ∃ cs, cs ∈ l) :
    ∃ cs, cs ∈ ls.prod := by
  induction ls with
  | nil => exact ⟨[], Language.nil_mem_one⟩
  | cons l ls ih =>
    obtain ⟨hl, hls⟩ := List.forall_mem_cons.1 h
    rw [List.prod_cons]
    exact exists_mem_mul hl (ih hls)

theorem exists_mem_padded {texts : Language Char} (h : ∃ cs, cs ∈ texts) :
    ∃ cs, cs ∈ padded texts :=
  exists_mem_mul (exists_mem_mul ⟨[], nil_mem_blanks⟩ h) ⟨[], nil_mem_blanks⟩

theorem exists_mem_enclosed {first last : Char} {texts : Language Char} (h : ∃ cs, cs ∈ texts) :
    ∃ cs, cs ∈ enclosed first last texts :=
  exists_mem_mul (exists_mem_mul ⟨[first], rfl⟩ h) ⟨[last], rfl⟩

theorem exists_mem_listed {items : List (Language Char)} (h : ∀ l ∈ items, ∃ cs, cs ∈ l) :
    ∃ cs, cs ∈ listed items := by
  cases items with
  | nil => exact ⟨[], nil_mem_blanks⟩
  | cons item items =>
    obtain ⟨hitem, hitems⟩ := List.forall_mem_cons.1 h
    refine exists_mem_mul (exists_mem_padded hitem) (exists_mem_prod fun l hl => ?_)
    obtain ⟨item, hmem, rfl⟩ := List.mem_map.1 hl
    exact exists_mem_mul ⟨[','], rfl⟩ (exists_mem_padded (hitems item hmem))

/-- Every character can be written: a control character by its unit, quote and
    backslash behind a backslash, any other as it is. -/
theorem exists_spells (c : Char) : ∃ cs, Spells c cs := by
  by_cases hcontrol : 0x20 ≤ c.toNat
  · by_cases hquote : c = '"'
    · subst hquote
      exact ⟨['\\', '"'], .short (by decide)⟩
    · by_cases hbackslash : c = '\\'
      · subst hbackslash
        exact ⟨['\\', '\\'], .short (by decide)⟩
      · exact ⟨_, .raw hcontrol hquote hbackslash⟩
  · exact ⟨_, .unit (by omega) ⟨_, _, _, _, rfl, .inl rfl, .inl rfl, .inl rfl, .inl rfl⟩⟩

theorem exists_mem_stringTexts (s : String) : ∃ cs, cs ∈ stringTexts s := by
  refine exists_mem_enclosed (exists_mem_prod fun l hl => ?_)
  obtain ⟨c, -, rfl⟩ := List.mem_map.1 hl
  exact exists_spells c

theorem exists_mem_numeralTexts (n : Numeral) : ∃ cs, cs ∈ numeralTexts n := by
  refine exists_mem_mul ⟨_, rfl⟩ ?_
  cases n.exponent with
  | none => exact ⟨[], Language.nil_mem_one⟩
  | some e =>
    refine exists_mem_mul (exists_mem_mul ⟨['e'], .inl rfl⟩ ?_) ⟨e.digits, rfl⟩
    cases e.negative with
    | true => exact ⟨['-'], rfl⟩
    | false => exact ⟨[], .inl rfl⟩

namespace Document

mutual

/-- **Every document has a text.** -/
theorem exists_mem_texts : ∀ d : Document, ∃ cs, cs ∈ d.texts
  | null => ⟨_, rfl⟩
  | bool _ => ⟨_, rfl⟩
  | number t => exists_mem_numeralTexts t.numeral
  | string s => exists_mem_stringTexts s
  | array items => exists_mem_enclosed (exists_mem_listed (exists_mem_itemTexts items))
  | object members => exists_mem_enclosed (exists_mem_listed (exists_mem_memberTexts members))

theorem exists_mem_itemTexts : ∀ items : List Document, ∀ l ∈ itemTexts items, ∃ cs, cs ∈ l
  | [] => nofun
  | d :: items => List.forall_mem_cons.2 ⟨exists_mem_texts d, exists_mem_itemTexts items⟩

theorem exists_mem_memberTexts : ∀ members : List (String × Document),
    ∀ l ∈ memberTexts members, ∃ cs, cs ∈ l
  | [] => nofun
  | (k, d) :: rest => List.forall_mem_cons.2
    ⟨exists_mem_mul (exists_mem_mul (exists_mem_stringTexts k) (exists_mem_padded ⟨_, rfl⟩))
      (exists_mem_texts d), exists_mem_memberTexts rest⟩

end

end Document

end Json

end ScriptLiteral
