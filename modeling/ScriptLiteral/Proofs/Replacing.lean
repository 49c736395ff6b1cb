/-
  Script literals — escaping by whole-text replacements.

  The inside of a string literal is written in one pass that looks one character
  ahead.  The same text comes from replacing, in the whole text and one after the
  other, backslashes, single quotes, `CR LF` pairs and line feeds.

  * `replaceAll` replaces the occurrences of a text from left to right;
  * `replaceAll_marks`: backslashes and then quotes are escaped as if at once, since
    the first replacement brings no quote;
  * `replaceAll_breaks`: `CR LF` and then `LF` are replaced as if the breaks were
    folded first, since no replacement brings a break;
  * `foldBreaks_escapeMarks`: escaping the marks neither makes nor parts a break;
  * `quote_eq_replaced` puts these together.
-/
import Mathlib
import ScriptLiteral.Proofs.Term

namespace ScriptLiteral

namespace Literal

/-! ## Replacing -/

/-- Replace each occurrence of a text that is not empty, from left to right; the
    search goes on behind what was replaced. -/
def replaceAll (pattern replacement : List Char) : List Char → List Char
  | [] => []
  | c :: cs =>
    if pattern <+: c :: cs then
      replacement ++ replaceAll pattern replacement (cs.drop (pattern.length - 1))
    else c :: replaceAll pattern replacement cs
termination_by cs => cs.length
decreasing_by all_goals simp only [List.length_drop, List.length_cons]; omega

/-- A string with each occurrence of another replaced. -/
def replaced (pattern replacement s : String) : String :=
  String.ofList (replaceAll pattern.toList replacement.toList s.toList)

theorem toList_replaced (pattern replacement s : String) :
    (replaced pattern replacement s).toList =
      replaceAll pattern.toList replacement.toList s.toList :=
  String.toList_ofList

theorem replaceAll_singleton (p : Char) (replacement cs : List Char) :
    replaceAll [p] replacement cs = cs.flatMap fun c => if c = p then replacement else [c] := by
  induction cs with
  | nil => rw [replaceAll, List.flatMap_nil]
  | cons c cs ih =>
    rw [replaceAll, List.flatMap_cons]
    by_cases h : c = p
    · have hprefix : [p] <+: c :: cs := ⟨cs, by rw [h]; rfl⟩
      rw [if_pos hprefix, if_pos h, List.length_singleton, Nat.sub_self, List.drop_zero, ih]
    · have hprefix : ¬ [p] <+: c :: cs := fun hp => h (List.cons_prefix_cons.1 hp).1.symm
      rw [if_neg hprefix, if_neg h, ih]
      rfl

/-! ## Backslashes and quotes -/

/-- A character with a backslash in front if it is a backslash or a quote. -/
def escapeMark (c : Char) : List Char := if c = '\\' ∨ c = '\'' then ['\\', c] else [c]

theorem replaceAll_marks (cs : List Char) :
    replaceAll ['\''] ['\\', '\''] (replaceAll ['\\'] ['\\', '\\'] cs) = cs.flatMap escapeMark := by
  rw [replaceAll_singleton, replaceAll_singleton, List.flatMap_assoc]
  congr 1
  funext c
  by_cases hb : c = '\\'
  · subst hb; rfl
  · by_cases hq : c = '\''
    · subst hq; rfl
    · simp [escapeMark, hb, hq]

/-! ## Line breaks -/

/-- A line feed as it stands in a string literal. -/
def escapeBreak (c : Char) : List Char := if c = '\n' then ['\\', 'n'] else [c]

theorem foldBreaks_cons {c : Char} {cs : List Char} (h : c = '\r' → cs.head? ≠ some '\n') :
    foldBreaks (c :: cs) = c :: foldBreaks cs := by
  rw [foldBreaks]
  rintro ds rfl rfl
  exact h rfl rfl

theorem replaceAll_breaks (cs : List Char) :
    replaceAll ['\n'] ['\\', 'n'] (replaceAll ['\r', '\n'] ['\\', 'n'] cs) =
      (foldBreaks cs).flatMap escapeBreak := by
  rw [replaceAll_singleton]
  fun_induction foldBreaks cs with
  | case1 => rw [replaceAll]; rfl
  | case2 cs ih =>
    have hprefix : ['\r', '\n'] <+: '\r' :: '\n' :: cs := ⟨cs, rfl⟩
    rw [replaceAll, if_pos hprefix, List.flatMap_append, List.flatMap_cons]
    exact congrArg (['\\', 'n'] ++ ·) ih
  | case3 c cs hc ih =>
    have hprefix : ¬ ['\r', '\n'] <+: c :: cs := by
      rintro ⟨ds, hds⟩
      obtain ⟨rfl, rfl⟩ := List.cons.inj hds
      exact hc ds rfl rfl
    rw [replaceAll, if_neg hprefix, List.flatMap_cons, List.flatMap_cons, ih]
    rfl

/-! ## Both -/

theorem head?_escapeMarks {cs : List Char} (h : cs.head? ≠ some '\n') :
    (cs.flatMap escapeMark).head? ≠ some '\n' := by
  cases cs with
  | nil => exact h
  | cons c cs =>
    rw [List.flatMap_cons]
    unfold escapeMark
    split
    · simp
    · exact h

theorem foldBreaks_escapeMarks (cs : List Char) :
    foldBreaks (cs.flatMap escapeMark) = (foldBreaks cs).flatMap escapeMark := by
  fun_induction foldBreaks cs with
  | case1 => rfl
  | case2 cs ih => exact congrArg ('\n' :: ·) ih
  | case3 c cs hc ih =>
    rw [List.flatMap_cons, List.flatMap_cons, ← ih]
    by_cases hmark : c = '\\' ∨ c = '\''
    · -- the backslash in front is no `CR`, and the mark behind it neither
      have hne : c ≠ '\r' := by rintro rfl; revert hmark; decide
      rw [escapeMark, if_pos hmark, List.cons_append, List.cons_append,
        foldBreaks_cons fun h => absurd h (by decide), foldBreaks_cons fun h => absurd h hne]
      rfl
    · rw [escapeMark, if_neg hmark, List.singleton_append, List.singleton_append]
      refine foldBreaks_cons fun hr => head?_escapeMarks fun hn => ?_
      obtain ⟨ds, rfl⟩ := List.head?_eq_some_iff.1 hn
      exact hc ds hr rfl

theorem flatMap_escapeBreak_escapeMark (c : Char) :
    (escapeMark c).flatMap escapeBreak = Term.escapeChar c := by
  unfold Term.escapeChar
  split
  · rfl
  · rfl
  · rfl
  · next hb hq hn =>
    have hmark : escapeMark c = [c] := if_neg (not_or.2 ⟨hb, hq⟩)
    rw [hmark, List.flatMap_singleton]
    exact if_neg hn

/-- **A string literal is its text after four replacements, between quotes.**  Every
    backslash is doubled, then every quote gets a backslash, then every `CR LF` and
    at last every remaining `LF` becomes a backslash and `n`. -/
theorem quote_eq_replaced (s : String) :
    quote s = "'" ++ replaced "\n" "\\n" (replaced "\r\n" "\\n"
      (replaced "'" "\\'" (replaced "\\" "\\\\" s))) ++ "'" := by
  have hescape : escape s.toList = replaceAll ['\n'] ['\\', 'n']
      (replaceAll ['\r', '\n'] ['\\', 'n'] (replaceAll ['\''] ['\\', '\'']
        (replaceAll ['\\'] ['\\', '\\'] s.toList))) := by
    calc escape s.toList
        = (foldBreaks s.toList).flatMap Term.escapeChar := Term.escape_eq _
      _ = (foldBreaks s.toList).flatMap fun c => (escapeMark c).flatMap escapeBreak := by
          simp only [flatMap_escapeBreak_escapeMark]
      _ = (foldBreaks (s.toList.flatMap escapeMark)).flatMap escapeBreak := by
          rw [foldBreaks_escapeMarks, List.flatMap_assoc]
      _ = _ := by rw [replaceAll_marks, replaceAll_breaks]
  rw [← String.toList_inj, toList_quote, hescape]
  simp only [String.toList_append, toList_replaced]
  rfl

end Literal

end ScriptLiteral
