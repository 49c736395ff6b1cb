/-
  Script literals — where a string literal ends.

  Whoever evaluates a literal finds the end of a string by scanning it: a backslash
  takes the next character with it, and the first quote without one is the last
  character of the string.

  * `scan` takes a string literal from the front of a text; it accepts any escaped
    character, and a line feed too, so that all that is said of string literals
    here comes from how they are written;
  * `scan_split` and `scan_append`: a scan loses nothing, and what it found does not
    depend on what stands behind it;
  * `scanInside_escapeChar`: the scan takes each escaped character as the one that was
    escaped;
  * `quote_delimits_itself`: the literal of a text, or its quoted key, is taken as a
    whole in front of any text.
-/
import Mathlib
import ScriptLiteral.Proofs.Term

namespace ScriptLiteral

namespace Literal

/-! ## Scanning -/

/-- A string literal found at the front of a text. -/
structure Scan where
  /-- The literal as it stands, up to and with its closing quote. -/
  token : List Char
  /-- The characters that it denotes. -/
  content : List Char
  /-- What stands behind it. -/
  rest : List Char
deriving DecidableEq

/-- The character that a character behind a backslash denotes. -/
def escaped (c : Char) : Char := if c = 'n' then '\n' else c

/-- The scan that also takes the characters in front, which denote one character. -/
def Scan.behind (taken : List Char) (c : Char) (s : Scan) : Scan :=
  ⟨taken ++ s.token, c :: s.content, s.rest⟩

/-- Scan from behind the opening quote up to the first quote without a
    backslash. -/
def scanInside : List Char → Option Scan
  | [] => none
  | '\'' :: rest => some ⟨['\''], [], rest⟩
  | ['\\'] => none
  | '\\' :: c :: rest => (scanInside rest).map (.behind ['\\', c] (escaped c))
  | c :: rest => (scanInside rest).map (.behind [c] c)

/-- Scan a string literal at the front of a text. -/
def scan : List Char → Option Scan
  | '\'' :: rest => (scanInside rest).map fun s => { s with token := '\'' :: s.token }
  | _ => none

/-! ## Nothing is lost -/

theorem scanInside_split {cs : List Char} {s : Scan} (h : scanInside cs = some s) :
    s.token ++ s.rest = cs := by
  fun_induction scanInside cs generalizing s with
  | case1 => nomatch h
  | case2 rest => cases h; rfl
  | case3 => nomatch h
  | case4 c rest ih =>
    obtain ⟨r, hr, rfl⟩ := Option.map_eq_some_iff.1 h
    rw [Scan.behind, ← ih hr, List.append_assoc]
    rfl
  | case5 c rest _ _ _ ih =>
    obtain ⟨r, hr, rfl⟩ := Option.map_eq_some_iff.1 h
    rw [Scan.behind, ← ih hr, List.append_assoc]
    rfl

/-- The literal and what stands behind it are the text. -/
theorem scan_split {cs : List Char} {s : Scan} (h : scan cs = some s) :
    s.token ++ s.rest = cs := by
  unfold scan at h
  split at h
  · obtain ⟨r, hr, rfl⟩ := Option.map_eq_some_iff.1 h
    rw [List.cons_append, scanInside_split hr]
  · nomatch h

theorem scanInside_cons {c : Char} (hquote : c ≠ '\'') (hback : c ≠ '\\') (rest : List Char) :
    scanInside (c :: rest) = (scanInside rest).map (.behind [c] c) := by
  rw [scanInside]
  · exact hquote
  · rintro rfl
    exact absurd rfl hback
  · rintro d ds rfl
    exact absurd rfl hback

theorem scanInside_append {cs : List Char} {s : Scan} (h : scanInside cs = some s)
    (more : List Char) : scanInside (cs ++ more) = some { s with rest := s.rest ++ more } := by
  fun_induction scanInside cs generalizing s with
  | case1 => nomatch h
  | case2 rest => cases h; rw [List.cons_append, scanInside]
  | case3 => nomatch h
  | case4 c rest ih =>
    obtain ⟨r, hr, rfl⟩ := Option.map_eq_some_iff.1 h
    rw [List.cons_append, List.cons_append, scanInside, ih hr]
    rfl
  | case5 c rest hquote hend hescape ih =>
    obtain ⟨r, hr, rfl⟩ := Option.map_eq_some_iff.1 h
    have hback : c ≠ '\\' := by
      intro hc
      cases rest with
      | nil => exact hend hc rfl
      | cons d ds => exact hescape d ds hc rfl
    rw [List.cons_append, scanInside_cons hquote hback, ih hr]
    rfl

/-- What a scan finds does not depend on what stands behind it. -/
theorem scan_append {cs : List Char} {s : Scan} (h : scan cs = some s) (more : List Char) :
    scan (cs ++ more) = some { s with rest := s.rest ++ more } := by
  unfold scan at h
  split at h
  · obtain ⟨r, hr, rfl⟩ := Option.map_eq_some_iff.1 h
    rw [List.cons_append, scan, scanInside_append hr]
    rfl
  · nomatch h

/-! ## Escaped characters -/

theorem scanInside_escapeChar (c : Char) (rest : List Char) :
    scanInside (Term.escapeChar c ++ rest) =
      (scanInside rest).map (.behind (Term.escapeChar c) c) := by
  unfold Term.escapeChar
  split
  · rfl
  · rfl
  · rfl
  · next hback hquote _ => exact scanInside_cons hquote hback rest

theorem scanInside_escaped (cs rest : List Char) :
    scanInside (cs.flatMap Term.escapeChar ++ '\'' :: rest) =
      some ⟨cs.flatMap Term.escapeChar ++ ['\''], cs, rest⟩ := by
  induction cs with
  | nil => rfl
  | cons c cs ih =>
    rw [List.flatMap_cons, List.append_assoc, scanInside_escapeChar, ih, List.append_assoc]
    rfl

theorem scan_quoted (cs rest : List Char) :
    scan (Term.quoted cs ++ rest) = some ⟨Term.quoted cs, cs, rest⟩ := by
  rw [Term.quoted, List.cons_append, List.append_assoc, scan, List.singleton_append,
    scanInside_escaped]
  rfl

theorem scan_take_quoted_isSome_iff (cs rest : List Char) (n : Nat) :
    (scan ((Term.quoted cs ++ rest).take n)).isSome ↔ (Term.quoted cs).length ≤ n := by
  constructor
  · intro hsome
    obtain ⟨s, hs⟩ := Option.isSome_iff_exists.1 hsome
    have hwhole := scan_append hs ((Term.quoted cs ++ rest).drop n)
    rw [List.take_append_drop, scan_quoted] at hwhole
    have htoken : Term.quoted cs = s.token := congrArg Scan.token (Option.some.inj hwhole)
    have hlength := congrArg List.length (scan_split hs)
    rw [List.length_append, List.length_take] at hlength
    rw [htoken]
    omega
  · intro hn
    rw [List.take_append, List.take_of_length_le hn, scan_quoted]
    rfl

theorem lineFeed_notMem_quoted (cs : List Char) : '\n' ∉ Term.quoted cs := by
  have hescape : ∀ c, '\n' ∉ Term.escapeChar c := by
    intro c
    unfold Term.escapeChar
    split
    · decide
    · decide
    · decide
    · next h => exact fun hm => h (List.mem_singleton.1 hm).symm
  rw [Term.quoted, List.mem_cons, List.mem_append, List.mem_flatMap, List.mem_singleton]
  rintro (h | ⟨c, -, h⟩ | h)
  · exact absurd h (by decide)
  · exact hescape c h
  · exact absurd h (by decide)

/-! ## String literals -/

/-- The token is a text between quotes: its string literal, or its key where the key
    is not bare. -/
def QuotedAs (s token : String) : Prop :=
  token = quote s ∨ isBareKey s.toList = false ∧ token = key s

theorem QuotedAs.toList_eq {s token : String} (h : QuotedAs s token) :
    token.toList = Term.quoted (foldText s).toList := by
  rcases h with rfl | ⟨hbare, rfl⟩
  · exact Term.toList_quote_eq s
  · rw [key, hbare]
    exact Term.toList_quote_eq s

/-- **A string literal delimits itself.**

    In front of any text, a scan takes the string literal of `s` as a whole, leaves
    the text untouched, and finds that the literal denotes `s` with every `CR LF` as
    `LF`.  No line feed stands in it.  The scan does not end before the closing
    quote, whatever was there of the text behind it; and if two string literals with
    texts behind them are the same, then so are the texts, and what the literals
    denote.  The same holds of the quoted key of `s`. -/
theorem quote_delimits_itself {s token : String} (h : QuotedAs s token) (t : String) :
    scan (token ++ t).toList = some ⟨token.toList, (foldText s).toList, t.toList⟩ ∧
      '\n' ∉ token.toList ∧
      (∀ n, (scan ((token ++ t).toList.take n)).isSome ↔ token.toList.length ≤ n) ∧
      ∀ s' token' t', QuotedAs s' token' →
        (token ++ t = token' ++ t' ↔ foldText s = foldText s' ∧ t = t') := by
  have hscan : ∀ {s token : String}, QuotedAs s token → ∀ t : String,
      scan (token ++ t).toList = some ⟨token.toList, (foldText s).toList, t.toList⟩ := by
    intro s token h t
    rw [String.toList_append, h.toList_eq, scan_quoted]
  refine ⟨hscan h t, ?_, fun n => ?_, fun s' token' t' h' => ?_⟩
  · rw [h.toList_eq]
    exact lineFeed_notMem_quoted _
  · rw [String.toList_append, h.toList_eq]
    exact scan_take_quoted_isSome_iff _ _ n
  · constructor
    · intro heq
      have hsame := hscan h t
      rw [heq, hscan h' t'] at hsame
      obtain ⟨-, hcontent, hrest⟩ := Scan.mk.inj (Option.some.inj hsame)
      exact ⟨String.toList_inj.1 hcontent.symm, String.toList_inj.1 hrest.symm⟩
    · rintro ⟨hfold, rfl⟩
      rw [← String.toList_inj, String.toList_append, String.toList_append, h.toList_eq,
        h'.toList_eq, hfold]

/-- A text that ends in a backslash, a line break and a quote, as a key in front of
    more quotes. -/
theorem quote_delimits_itself_trailingQuote :
    QuotedAs "x\\\r\n'" "'x\\\\\\n\\''" ∧
      scan "'x\\\\\\n\\'': ', \\'".toList =
        some ⟨"'x\\\\\\n\\''".toList, "x\\\n'".toList, ": ', \\'".toList⟩ := by
  have hquoted : QuotedAs "x\\\r\n'" "'x\\\\\\n\\''" := .inr ⟨by decide, by decide⟩
  exact ⟨hquoted, (quote_delimits_itself hquoted ": ', \\'").1⟩

end Literal

end ScriptLiteral
