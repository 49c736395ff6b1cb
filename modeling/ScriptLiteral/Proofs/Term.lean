/-
  Script literals — the terms of the literal language.

  A term is what a literal says, and its characters are the literal.  Values that
  say the same have one term; what a literal cannot keep of a value is not in it:
  a line break is a line feed, a number is its decimal text, and an instant the
  exact number of its milliseconds.

  * `Term` is the syntax, and `Term.chars` writes it;
  * `foldBreaks` turns each `CR LF` of a text into `LF`; `escape_eq` says that
    escaping a text is folding its breaks and then escaping one character at a
    time;
  * `toList_quote_eq` and `toList_key_eq` are string literals and keys as they
    stand in a term.
-/
import Mathlib
import ScriptLiteral.Literal.Quoted
import ScriptLiteral.Proofs.PlainNumber

namespace ScriptLiteral

/-- What a literal says. -/
inductive Term where
  | null
  | bool (b : Bool)
  | nan
  | infinity (negative : Bool)
  /-- A number, by its decimal text. -/
  | number (text : String)
  | string (s : String)
  | list (items : List Term)
  /-- An object literal: keys and values, in order. -/
  | record (entries : List (String × Term))
  /-- The date of a number of milliseconds. -/
  | date (milliseconds : ℚ)
  /-- Source text of the host. -/
  | verbatim (source : String)

/-! ## Line breaks -/

/-- Each `CR LF` becomes `LF`. -/
def foldBreaks : List Char → List Char
  | [] => []
  | '\r' :: '\n' :: cs => '\n' :: foldBreaks cs
  | c :: cs => c :: foldBreaks cs

/-- The text with each `CR LF` as `LF`. -/
def foldText (s : String) : String := String.ofList (foldBreaks s.toList)

theorem mem_foldBreaks_lineFeed {cs : List Char} : '\n' ∈ foldBreaks cs ↔ '\n' ∈ cs := by
  fun_induction foldBreaks cs with
  | case1 => rfl
  | case2 cs ih => simp
  | case3 c cs h ih => simp only [List.mem_cons, ih]

theorem foldBreaks_eq_self {cs : List Char} (h : '\n' ∉ cs) : foldBreaks cs = cs := by
  fun_induction foldBreaks cs with
  | case1 => rfl
  | case2 cs ih => simp at h
  | case3 c cs hc ih => rw [ih fun hm => h (List.mem_cons_of_mem _ hm)]

namespace Term

/-! ## Strings and keys -/

/-- A character as it stands in a string literal. -/
def escapeChar : Char → List Char
  | '\\' => ['\\', '\\']
  | '\'' => ['\\', '\'']
  | '\n' => ['\\', 'n']
  | c => [c]

/-- The string literal of characters. -/
def quoted (cs : List Char) : List Char := '\'' :: (cs.flatMap escapeChar ++ ['\''])

/-- A key as it is written. -/
def keyChars (k : String) : List Char :=
  if Literal.isBareKey k.toList then k.toList else quoted k.toList

/-- **Escaping is folding the line breaks and then escaping each character.** -/
theorem escape_eq (cs : List Char) : Literal.escape cs = (foldBreaks cs).flatMap escapeChar := by
  fun_induction Literal.escape cs with
  | case1 => rfl
  | case2 cs ih => simpa [foldBreaks, escapeChar] using ih
  | case3 cs ih => simpa [foldBreaks, escapeChar] using ih
  | case4 cs ih => simpa [foldBreaks, escapeChar] using ih
  | case5 cs ih => simpa [foldBreaks, escapeChar] using ih
  | case6 c cs h₁ h₂ h₃ h₄ ih =>
    have hf : foldBreaks (c :: cs) = c :: foldBreaks cs := by
      rw [foldBreaks]
      exact h₃
    have he : escapeChar c = [c] := by
      unfold escapeChar
      split <;> simp_all
    rw [hf, List.flatMap_cons, he, ih]
    rfl

theorem toList_quote_eq (s : String) :
    (Literal.quote s).toList = quoted (foldText s).toList := by
  rw [Literal.toList_quote, escape_eq, quoted, foldText, String.toList_ofList]

theorem not_mem_of_isBareKey {cs : List Char} (h : Literal.isBareKey cs = true) : '\n' ∉ cs := by
  have hpart : Literal.isKeyPart '\n' = false := by decide
  have hstart : Literal.isKeyStart '\n' = false := by decide
  unfold Literal.isBareKey at h
  split at h
  · simp only [Bool.and_eq_true, List.all_eq_true] at h
    obtain ⟨⟨h₁, h₂⟩, h₃⟩ := h
    rintro (_ | ⟨_, _ | ⟨_, hm⟩⟩)
    · rw [hstart] at h₁; nomatch h₁
    · rw [hpart] at h₂; nomatch h₂
    · have := h₃ _ hm
      rw [hpart] at this; nomatch this
  · nomatch h

theorem isBareKey_foldBreaks (cs : List Char) :
    Literal.isBareKey (foldBreaks cs) = Literal.isBareKey cs := by
  by_cases h : '\n' ∈ cs
  · rw [Bool.eq_false_iff.2 fun hb => not_mem_of_isBareKey hb h,
      Bool.eq_false_iff.2 fun hb => not_mem_of_isBareKey hb (mem_foldBreaks_lineFeed.2 h)]
  · rw [foldBreaks_eq_self h]

theorem toList_key_eq (k : String) : (Literal.key k).toList = keyChars (foldText k) := by
  unfold Literal.key keyChars
  rw [foldText, String.toList_ofList, isBareKey_foldBreaks]
  split
  · next h => exact (foldBreaks_eq_self (not_mem_of_isBareKey h)).symm
  · rw [toList_quote_eq, foldText, String.toList_ofList]

/-! ## Words -/

def nullWord : List Char := ['n', 'u', 'l', 'l']

def trueWord : List Char := ['t', 'r', 'u', 'e']

def falseWord : List Char := ['f', 'a', 'l', 's', 'e']

def nanWord : List Char := ['N', 'a', 'N']

def infinityWord : List Char := ['I', 'n', 'f', 'i', 'n', 'i', 't', 'y']

/-- What stands in front of the milliseconds of a date. -/
def dateWord : List Char := ['n', 'e', 'w', ' ', 'D', 'a', 't', 'e', '(']

/-! ## Writing -/

/-- Texts with a comma between any two. -/
def separated (texts : List (List Char)) : List Char := [',', ' '].intercalate texts

/-- The decimal of a whole number of thousandths. -/
def thousandths (q : ℚ) : Decimal := ⟨decide (q < 0), (q * 1000).num.natAbs, 3⟩

mutual

/-- The characters of a term. -/
def chars : Term → List Char
  | null => nullWord
  | bool b => if b then trueWord else falseWord
  | nan => nanWord
  | infinity negative => PlainNumber.signChars negative ++ infinityWord
  | number text => text.toList
  | string s => quoted s.toList
  | list items => '[' :: (separated (itemChars items) ++ [']'])
  | record entries => '\x7b' :: (separated (entryChars entries) ++ ['\x7d'])
  | date q => dateWord ++ ((thousandths q).chars ++ [')'])
  | verbatim source => source.toList

/-- The characters of each item. -/
def itemChars : List Term → List (List Char)
  | [] => []
  | t :: ts => chars t :: itemChars ts

/-- The characters of each entry. -/
def entryChars : List (String × Term) → List (List Char)
  | [] => []
  | (k, t) :: rest => (keyChars k ++ ':' :: ' ' :: chars t) :: entryChars rest

end

/-- The literal of a term. -/
def text (t : Term) : String := String.ofList t.chars

/-- The characters of an entry. -/
def pairChars (e : String × Term) : List Char := keyChars e.1 ++ ':' :: ' ' :: e.2.chars

theorem itemChars_eq_map (items : List Term) : itemChars items = items.map chars := by
  induction items with
  | nil => rfl
  | cons t ts ih => simp only [itemChars, List.map_cons, ih]

theorem entryChars_eq_map (entries : List (String × Term)) :
    entryChars entries = entries.map pairChars := by
  induction entries with
  | nil => rfl
  | cons e rest ih => simp only [entryChars, List.map_cons, ih, pairChars]

theorem separated_cons_cons (cs ds : List Char) (texts : List (List Char)) :
    separated (cs :: ds :: texts) = cs ++ ',' :: ' ' :: separated (ds :: texts) := by
  rw [separated, List.intercalate_cons_cons, List.append_assoc]
  rfl

theorem separated_cons (cs : List Char) (texts : List (List Char)) :
    separated (cs :: texts) = cs ++ texts.flatMap ([',', ' '] ++ ·) := by
  induction texts generalizing cs with
  | nil => simp [separated]
  | cons ds texts ih => rw [separated_cons_cons, ih ds, List.flatMap_cons]; rfl

theorem length_le_separated {cs : List Char} {texts : List (List Char)} (h : cs ∈ texts) :
    cs.length ≤ (separated texts).length := by
  induction texts with
  | nil => nomatch h
  | cons ds texts ih =>
    rcases List.mem_cons.1 h with rfl | h
    · rw [separated_cons, List.length_append]
      omega
    · cases texts with
      | nil => nomatch h
      | cons es texts =>
        have := ih h
        rw [separated_cons_cons, List.length_append]
        simp only [List.length_cons]
        omega

theorem length_tail_le_separated (cs : List Char) (texts : List (List Char)) :
    texts.length ≤ (separated (cs :: texts)).length := by
  induction texts generalizing cs with
  | nil => exact Nat.zero_le _
  | cons ds texts ih =>
    have := ih ds
    rw [separated_cons_cons, List.length_append]
    simp only [List.length_cons]
    omega

theorem thousandths_div (n : ℤ) :
    thousandths (n / 1000 : ℚ) = ⟨decide (n < 0), n.natAbs, 3⟩ := by
  have h₁ : (n / 1000 * 1000 : ℚ) = n := by field_simp
  have h₂ : (n / 1000 : ℚ) < 0 ↔ n < 0 := by
    rw [div_neg_iff]
    constructor
    · rintro (⟨-, h⟩ | ⟨h, -⟩)
      · norm_num at h
      · exact_mod_cast h
    · intro h
      exact .inr ⟨by exact_mod_cast h, by norm_num⟩
  simp only [thousandths, h₁, h₂, Rat.num_intCast]

end Term

end ScriptLiteral
