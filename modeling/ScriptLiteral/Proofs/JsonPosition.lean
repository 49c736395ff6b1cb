/-
  Script literals — the position at which a JSON text is rejected.

  * `IsLastLine` says where the last line of some bytes starts, and
    `exists_isLastLine` that the column of a position counts from there;
  * `literalOfText_eq_error_iff`: a text has no literal iff it is no JSON text;
  * `error_position_final`: the position of an error is a place in the text, and every
    text with the same bytes up to there and one more has the same error.
-/
import ScriptLiteral.Proofs.JsonLookahead

namespace ScriptLiteral

namespace Json

/-! ## Lines -/

/-- The last line of the bytes starts at `start`: in front of it is nothing or a line
    feed, and behind it there is none. -/
def IsLastLine (consumed : List UInt8) (start : Nat) : Prop :=
  start ≤ consumed.length ∧ (start = 0 ∨ consumed[start - 1]? = some lineFeed) ∧
    lineFeed ∉ consumed.drop start

theorem exists_lastLine (consumed : List UInt8) :
    ∃ front line, consumed = front ++ line ∧
      (front = [] ∨ ∃ lines, front = lines ++ [lineFeed]) ∧ lineFeed ∉ line ∧
        (Position.after consumed).column = line.length := by
  induction consumed using List.reverseRecOn with
  | nil => exact ⟨[], [], rfl, .inl rfl, List.not_mem_nil, rfl⟩
  | append_singleton consumed b ih =>
    by_cases hb : b = lineFeed
    · refine ⟨consumed ++ [b], [], (List.append_nil _).symm, .inr ⟨consumed, by rw [hb]⟩,
        List.not_mem_nil, ?_⟩
      simp [Position.after, hb]
    · obtain ⟨front, line, rfl, hfront, hline, hcolumn⟩ := ih
      refine ⟨front, line ++ [b], List.append_assoc .., hfront, ?_, ?_⟩
      · simp [hline, Ne.symm hb]
      · have hstep : (Position.after (front ++ line ++ [b])).column =
            (Position.after (front ++ line)).column + 1 := by
          simp [Position.after, hb]
        rw [hstep, hcolumn, List.length_append]
        rfl

/-- **Line and column**: the line counts the line feeds, the column the bytes of the
    last line. -/
theorem exists_isLastLine (consumed : List UInt8) :
    ∃ start, IsLastLine consumed start ∧
      Position.after consumed = ⟨1 + consumed.count lineFeed, consumed.length - start⟩ := by
  obtain ⟨front, line, rfl, hfront, hline, hcolumn⟩ := exists_lastLine consumed
  refine ⟨front.length, ⟨?_, ?_, ?_⟩, ?_⟩
  · rw [List.length_append]
    exact Nat.le_add_right ..
  · rcases hfront with rfl | ⟨lines, rfl⟩
    · exact .inl rfl
    · exact .inr (by simp)
  · rwa [List.drop_left]
  · rw [List.length_append, Nat.add_sub_cancel_left, ← hcolumn]
    rfl

/-! ## Rejected texts -/

theorem parse_eq_error_iff {text : String} {e : Error} :
    parse text = .error e ↔
      ∃ failure, takeText text.toList = .error failure ∧ e = .ofFailure text.toList failure := by
  rw [parse, readText_eq]
  cases takeText text.toList with
  | error failure =>
    simp [Except.map, eq_comm]
  | ok r => simp [Except.map]

theorem literalOfText_eq_error_iff {text : String} {e : LiteralError} :
    literalOfText text = .error e ↔
      ∃ failure, takeText text.toList = .error failure ∧
        e = .json (.ofFailure text.toList failure) := by
  rw [literalOfText_eq, literalFrom_eq_error_iff fun j _ => plain_toValue j]
  constructor
  · rintro ⟨_, hparse, rfl⟩
    obtain ⟨failure, hfailure, rfl⟩ := parse_eq_error_iff.1 hparse
    exact ⟨failure, hfailure, rfl⟩
  · rintro ⟨failure, hfailure, rfl⟩
    exact ⟨_, parse_eq_error_iff.2 ⟨failure, hfailure, rfl⟩, rfl⟩

theorem offset_append (cause : Cause) {past : Nat} (cs : List Char) {rest : List Char}
    (h : past ≤ byteCount rest) :
    Failure.offset (cs ++ rest) ⟨cause, rest, past⟩ = byteCount cs + past := by
  rw [Failure.offset, byteCount_append, Nat.add_sub_cancel, Nat.min_eq_left h]

/-- **The position of an error is a place in the text, and final.**

    A text without literal is rejected at a place `p` in it: the line is one more than
    the number of line feeds in the first `p` bytes, and the column is the distance of
    `p` from the start of the last line of these.  Unless the place is the end of the
    text, every text that has the first `p + 1` bytes in common with it is rejected
    with the same error, so with the same message, line and column. -/
theorem error_position_final (text : String) (e : LiteralError)
    (h : literalOfText text = .error e) :
    ∃ p ≤ byteCount text.toList,
      (∃ cause start, IsLastLine ((bytes text.toList).take p) start ∧
        e = .json ⟨cause, ⟨1 + ((bytes text.toList).take p).count lineFeed, p - start⟩⟩) ∧
      (p < byteCount text.toList → ∀ text' : String,
        (bytes text'.toList).take (p + 1) = (bytes text.toList).take (p + 1) →
          literalOfText text' = .error e) := by
  obtain ⟨failure, hfailure, rfl⟩ := literalOfText_eq_error_iff.1 h
  cases takeText_settled text.toList with
  | ok _ found _ => rw [found] at hfailure; cases hfailure
  | @error cause past cs rest htext failed le same =>
    rw [failed] at hfailure
    obtain rfl := Except.error.inj hfailure
    have hoffset : Failure.offset text.toList ⟨cause, rest, past⟩ = byteCount cs + past := by
      rw [htext, offset_append cause cs le]
    have hle : byteCount cs + past ≤ byteCount text.toList := by
      rw [htext, byteCount_append]
      exact Nat.add_le_add_left le _
    refine ⟨byteCount cs + past, hle, ?_, fun hlt text' hsame => ?_⟩
    · obtain ⟨start, hstart, hafter⟩ :=
        exists_isLastLine ((bytes text.toList).take (byteCount cs + past))
      rw [List.length_take_of_le hle] at hafter
      exact ⟨cause, start, hstart, by rw [Error.ofFailure, hoffset, hafter]⟩
    · have hagree : Agree (byteCount cs + past + 1) text.toList text'.toList := ⟨hlt, hsame.symm⟩
      have hagree' := hagree
      rw [htext, Nat.add_assoc] at hagree'
      obtain ⟨t, ht, hrest⟩ := exists_append_of_agree hagree'
      refine literalOfText_eq_error_iff.2 ⟨⟨cause, t, past⟩, ?_, ?_⟩
      · rw [ht, same t hrest]
      · have hoffset' : Failure.offset text'.toList ⟨cause, t, past⟩ = byteCount cs + past := by
          rw [ht, offset_append cause cs (Nat.le_of_succ_le hrest.le_byteCount)]
        rw [Error.ofFailure, Error.ofFailure, hoffset, hoffset',
          (hagree.mono (Nat.le_succ _)).2]

/-- A text with a word that is none on its second line, behind a character of two
    bytes. -/
def misspelledText : String := "[\"\u00e9\",\n trux, 1]"

theorem error_position_final_misspelled :
    literalOfText misspelledText = .error (.json ⟨.expectedWord, ⟨2, 5⟩⟩) ∧
      ∃ p ≤ byteCount misspelledText.toList,
        (∃ cause start, IsLastLine ((bytes misspelledText.toList).take p) start ∧
          LiteralError.json ⟨.expectedWord, ⟨2, 5⟩⟩ = .json ⟨cause,
            ⟨1 + ((bytes misspelledText.toList).take p).count lineFeed, p - start⟩⟩) ∧
        (p < byteCount misspelledText.toList → ∀ text' : String,
          (bytes text'.toList).take (p + 1) = (bytes misspelledText.toList).take (p + 1) →
            literalOfText text' = .error (.json ⟨.expectedWord, ⟨2, 5⟩⟩)) := by
  have h : literalOfText misspelledText = .error (.json ⟨.expectedWord, ⟨2, 5⟩⟩) := by
    decide +kernel
  exact ⟨h, error_position_final misspelledText _ h⟩

end Json

end ScriptLiteral
