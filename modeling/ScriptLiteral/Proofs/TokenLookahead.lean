/-
  Script literals — how far the readers of JSON strings and numbers look.

  Every run of them is settled by what it takes and the next byte.

  * `hexEscape_settled`: four digits are judged together;
  * `readString_settled` goes from one character of a string to the next;
  * `readNumber_settled`: a number is judged when its last digit has been taken, but
    for an exponent that is out of range before (`endNumber_eq_error`).
-/
import ScriptLiteral.Proofs.JsonAcceptance
import ScriptLiteral.Proofs.Settled

namespace ScriptLiteral

namespace Json

/-! ## Strings -/

theorem utf8Size_of_isHexDigit {n : Nat} (hn : n < 0x10) {c : Char} (h : IsHexDigit n c) :
    c.utf8Size = 1 := by
  rcases h with rfl | rfl
  · revert n; decide
  · revert n; decide

theorem byteCount_of_mem_unitTexts {unit : Nat} (hunit : unit < 0x10000) {ds : List Char}
    (h : ds ∈ unitTexts unit) : byteCount ds = 4 := by
  obtain ⟨a, b, c, d, rfl, ha, hb, hc, hd⟩ := h
  simp only [byteCount_cons, utf8Size_of_isHexDigit (by omega) ha,
    utf8Size_of_isHexDigit (by omega) hb, utf8Size_of_isHexDigit (by omega) hc,
    utf8Size_of_isHexDigit (by omega) hd]
  rfl

theorem hexEscape_eq_error {s : List Char} {failure : Failure} (h : hexEscape s = .error failure) :
    failure = unitFailure s := by
  unfold hexEscape at h
  split at h
  · split at h
    · cases h
    · exact (Except.error.inj h).symm
  · exact (Except.error.inj h).symm

/-- **Four digits are judged together**: they are taken whatever stands behind them,
    and refused whatever stands behind their bytes. -/
theorem hexEscape_settled (s : List Char) : Settled hexEscape s := by
  cases h : hexEscape s with
  | ok r =>
    obtain ⟨unit, rest⟩ := r
    obtain ⟨hunit, ds, hds, rfl⟩ := hexEscape_eq_ok h
    exact .taken ds fun t => hexEscape_append hunit hds t
  | error failure =>
    obtain rfl := hexEscape_eq_error h
    by_cases hshort : byteCount s < 4
    · rw [unitFailure, if_pos hshort] at h
      exact .atEnd h
    · rw [unitFailure, if_neg hshort] at h
      refine .error (List.nil_append s).symm h (Nat.not_lt.1 hshort) fun t ht => ?_
      rw [List.nil_append]
      cases ht' : hexEscape t with
      | ok r =>
        -- four digits in the one text would be four digits in the other
        obtain ⟨unit, rest⟩ := r
        obtain ⟨hunit, ds, hds, rfl⟩ := hexEscape_eq_ok ht'
        have hagree : Agree (byteCount ds + 0) (ds ++ rest) s := by
          rw [byteCount_of_mem_unitTexts hunit hds]
          exact ht.symm.mono (by decide)
        obtain ⟨s', rfl, -⟩ := exists_append_of_agree hagree
        rw [hexEscape_append hunit hds] at h
        cases h
      | error failure =>
        obtain rfl := hexEscape_eq_error ht'
        have hlong : ¬ byteCount t < 4 := Nat.not_lt.2 (Nat.le_of_succ_le ht.le_byteCount)
        rw [unitFailure, if_neg hlong]

/-- The digits behind a leading surrogate are those of a trailing one, or refused. -/
theorem readTrailing_settled (leading : Nat) (s : List Char) :
    Settled (readTrailing leading) s := by
  cases s with
  | nil => exact .atEnd rfl
  | cons c s =>
    by_cases hc : c = '\\'
    · subst hc
      refine .tail ?_
      cases s with
      | nil => exact .atEnd rfl
      | cons d s =>
        by_cases hd : d = 'u'
        · subst hd
          have h := (hexEscape_settled s).andThen (fun unit rest =>
            if IsTrailing unit then .ok (pairChar leading unit, rest)
            else .error (.before .unpairedSurrogate rest)) fun unit rest _ => by
              by_cases htrailing : IsTrailing unit
              · exact .taken [] fun t => if_pos htrailing
              · exact .before fun t => if_neg htrailing
          refine .tail (h.of_eq fun t => ?_)
          rw [readTrailing, andThen]
          cases hexEscape t <;> rfl
        · refine .atByte .endOfSurrogate fun e t he => ?_
          have he' : e ≠ 'u' := he.ne hd (by decide)
          unfold readTrailing
          split <;> simp_all
    · refine .atByte .endOfSurrogate fun d t hd => ?_
      have hd' : d ≠ '\\' := hd.ne hc (by decide)
      unfold readTrailing
      split <;> simp_all

theorem readUnicode_settled (s : List Char) : Settled readUnicode s := by
  have h := (hexEscape_settled s).andThen (fun unit rest =>
    if IsTrailing unit then .error (.before .unpairedSurrogate rest)
    else if IsLeading unit then readTrailing unit rest
    else .ok (Char.ofNat unit, rest)) fun unit rest _ => by
      by_cases htrailing : IsTrailing unit
      · exact .before fun t => if_pos htrailing
      · by_cases hleading : IsLeading unit
        · exact (readTrailing_settled unit rest).of_eq fun t => by
            rw [if_neg htrailing, if_pos hleading]
        · exact .taken [] fun t => by rw [if_neg htrailing, if_neg hleading]; rfl
  refine h.of_eq fun t => ?_
  rw [readUnicode, andThen]
  cases hexEscape t <;> rfl

theorem Alike.shortEscape?_eq {c d : Char} (h : Alike c d) : shortEscape? d = shortEscape? c := by
  have hascii : ∀ {sign x : Char}, shortEscape? sign = some x → sign.toNat < 0x80 := by
    intro sign x hsign
    have hmem := shortEscape?_eq_some hsign
    simp only [shortEscapes, List.mem_cons, Prod.mk.injEq, List.not_mem_nil, or_false] at hmem
    rcases hmem with ⟨-, rfl⟩ | ⟨-, rfl⟩ | ⟨-, rfl⟩ | ⟨-, rfl⟩ | ⟨-, rfl⟩ | ⟨-, rfl⟩ | ⟨-, rfl⟩ |
      ⟨-, rfl⟩ <;> decide
  cases hc : shortEscape? c with
  | some x => rw [h.eq (hascii hc), hc]
  | none =>
    cases hd : shortEscape? d with
    | none => rfl
    | some x =>
      rw [(h.eq_iff (hascii hd)).1 rfl, hd] at hc
      cases hc

theorem readEscape_settled (s : List Char) : Settled readEscape s := by
  cases s with
  | nil => exact .atEnd rfl
  | cons c s =>
    by_cases hc : c = 'u'
    · subst hc
      exact .tail (readUnicode_settled s)
    · cases hx : shortEscape? c with
      | some x =>
        refine .taken (a := x) [c] fun t => ?_
        rw [List.singleton_append, readEscape, hx]
        exact hc
      | none =>
        refine .atByte .invalidEscape fun d t hd => ?_
        rw [readEscape, hd.shortEscape?_eq, hx]
        exact hd.ne hc (by decide)

theorem readString_backslash (text : List Char) :
    readString ('\\' :: text) =
      andThen readEscape (fun c rest => mapResult (c :: ·) (readString rest)) text := by
  rw [andThen]
  cases h : readEscape text with
  | ok r => exact readString_escape h
  | error failure =>
    rw [readString]
    split
    · next he => rw [h] at he; exact he.symm ▸ rfl
    · next he => rw [h] at he; cases he

theorem readString_cons {c : Char} (hquote : c ≠ '"') (hbackslash : c ≠ '\\') (text : List Char) :
    readString (c :: text) =
      if c.toNat < 0x20 then .error (.atByte .controlCharacter (c :: text))
      else mapResult (c :: ·) (readString text) := by
  rw [readString]
  · split
    · rfl
    · cases readString text <;> rfl
  · exact hquote
  · exact hbackslash

theorem readString_settled (s : List Char) : Settled readString s := by
  fun_induction readString s with
  | case1 => exact .atEnd (by rw [readString])
  | case2 rest => exact .taken ['"'] fun t => by rw [List.singleton_append, readString]
  | case3 rest failure hescape =>
    refine .tail (((readEscape_settled rest).andThen
      (fun c rest => mapResult (c :: ·) (readString rest)) ?_).of_eq readString_backslash)
    rintro c rest' hc
    rw [hescape] at hc
    cases hc
  | case4 rest c rest' hescape ih =>
    refine .tail (((readEscape_settled rest).andThen
      (fun c rest => mapResult (c :: ·) (readString rest)) ?_).of_eq readString_backslash)
    rintro c rest'' hc
    rw [hescape] at hc
    cases hc
    exact ih.map _
  | case5 c rest hquote hbackslash hcontrol =>
    refine .atByte .controlCharacter fun d t hd => ?_
    rw [readString_cons (hd.ne hquote (by decide))
      (hd.ne hbackslash (by decide)), if_pos ((hd.lt_iff (by decide)).2 hcontrol)]
  | case6 c rest hquote hbackslash hcontrol ih =>
    refine .tail ((ih.map (c :: ·)).of_eq fun t => ?_)
    rw [readString_cons hquote hbackslash, if_neg hcontrol]

/-! ## Numbers -/

namespace Numeral

theorem readWhole_cons {c : Char} (hc : c ≠ '0') (text : List Char) :
    readWhole (c :: text) =
      if c.isDigit then .ok (c :: text.takeWhile Char.isDigit, text.dropWhile Char.isDigit)
      else .error (.atByte .invalidNumber (c :: text)) := by
  unfold readWhole
  split <;> simp_all

theorem readWhole_settled (s : List Char) : Settled readWhole s := by
  cases s with
  | nil => exact .atEnd rfl
  | cons c s =>
    by_cases hc : c = '0'
    · subst hc
      refine .tail ?_
      cases s with
      | nil => exact .found_end rfl
      | cons d s =>
        by_cases hd : d.isDigit
        · refine .atByte .invalidNumber fun e t he => ?_
          rw [readWhole, if_pos (he.isDigit_eq.trans hd)]
        · refine .untaken (a := ['0']) fun e t he => ?_
          rw [readWhole, if_neg (he.isDigit_eq.symm ▸ hd)]
    · by_cases hdigit : c.isDigit
      · refine .tail (.digits (f := (c :: ·)) fun t => ?_)
        rw [readWhole_cons hc, if_pos hdigit]
      · refine .atByte .invalidNumber fun d t hd => ?_
        rw [readWhole_cons (hd.ne hc (by decide)),
          if_neg (hd.isDigit_eq.symm ▸ hdigit)]

theorem readFraction_cons {c : Char} (hc : c ≠ '.') (text : List Char) :
    readFraction (c :: text) = .ok ([], c :: text) := by
  unfold readFraction
  split <;> simp_all

theorem readFraction_settled (s : List Char) : Settled readFraction s := by
  cases s with
  | nil => exact .found_end rfl
  | cons c s =>
    by_cases hc : c = '.'
    · subst hc
      refine .tail ?_
      cases s with
      | nil => exact .atEnd rfl
      | cons d s =>
        by_cases hd : d.isDigit
        · refine .tail (.digits (f := (d :: ·)) fun t => ?_)
          rw [readFraction, if_pos hd]
        · refine .atByte .invalidNumber fun e t he => ?_
          rw [readFraction, if_neg (he.isDigit_eq.symm ▸ hd)]
    · exact .untaken fun d t hd => readFraction_cons (hd.ne hc (by decide)) t

theorem readExponentDigits_settled (negative : Bool) (s : List Char) :
    Settled (readExponentDigits negative) s := by
  cases s with
  | nil => exact .atEnd rfl
  | cons c s =>
    by_cases hc : c.isDigit
    · refine .tail (.digits (f := fun ds => ⟨negative, c :: ds⟩) fun t => ?_)
      rw [readExponentDigits, if_pos hc]
    · refine .atByte .invalidNumber fun d t hd => ?_
      rw [readExponentDigits, if_neg (hd.isDigit_eq.symm ▸ hc)]

theorem readSignedExponent_cons {c : Char} (hplus : c ≠ '+') (hminus : c ≠ '-')
    (text : List Char) :
    readSignedExponent (c :: text) = readExponentDigits false (c :: text) := by
  unfold readSignedExponent
  split <;> simp_all

theorem readSignedExponent_settled (s : List Char) : Settled readSignedExponent s := by
  cases s with
  | nil => exact .atEnd rfl
  | cons c s =>
    by_cases hplus : c = '+'
    · subst hplus
      exact .tail (readExponentDigits_settled false s)
    · by_cases hminus : c = '-'
      · subst hminus
        exact .tail (readExponentDigits_settled true s)
      · refine (readExponentDigits_settled false (c :: s)).congr_cons fun d t hd => ?_
        exact readSignedExponent_cons (hd.ne hplus (by decide))
          (hd.ne hminus (by decide)) t

theorem readExponent_settled (s : List Char) : Settled readExponent s := by
  cases s with
  | nil => exact .found_end rfl
  | cons c s =>
    by_cases hc : c = 'e' ∨ c = 'E'
    · refine .tail (((readSignedExponent_settled s).map some).of_eq fun t => ?_)
      rw [readExponent, if_pos hc]
      cases readSignedExponent t <;> rfl
    · refine .untaken (a := none) fun d t hd => ?_
      rw [readExponent, if_neg]
      rwa [hd.eq_iff (by decide), hd.eq_iff (by decide)]

end Numeral

theorem absorb_eq_cons {bound n m : Nat} {ds unread : List Char} {d : Char}
    (h : absorb bound n ds = (m, d :: unread)) :
    ∃ taken, ds = taken ++ d :: unread ∧
      ∀ more, absorb bound n (taken ++ d :: more) = (m, d :: more) := by
  induction ds generalizing n with
  | nil => cases h
  | cons c ds ih =>
    unfold absorb at h
    split at h
    · next hfits =>
      obtain ⟨taken, rfl, hmore⟩ := ih h
      refine ⟨c :: taken, rfl, fun more => ?_⟩
      rw [List.cons_append, absorb, if_pos hfits, hmore]
    · next hfits =>
      cases h
      refine ⟨[], rfl, fun more => ?_⟩
      rw [List.nil_append, absorb, if_neg hfits]

theorem scaledNumber_eq_error {negative : Bool} {significand : Nat} {exponent : Int}
    {unread : List Char} (h : scaledNumber negative significand exponent = .error unread) :
    unread = [] := by
  unfold scaledNumber at h
  split at h
  · cases h
  · exact (Except.error.inj h).symm

/-- A numeral is out of range when all of it has been seen, or at a digit of its
    exponent, and then whatever digits follow. -/
theorem Numeral.number_eq_error {negative : Bool} {whole fraction unread : List Char}
    {exponent : Option Exponent}
    (h : (Numeral.mk negative whole fraction exponent).number = .error unread) :
    unread = [] ∨ ∃ e taken d, exponent = some e ∧ e.digits = taken ++ d :: unread ∧
      ∀ more, (Numeral.mk negative whole fraction
        (some ⟨e.negative, taken ++ d :: more⟩)).number = .error more := by
  cases exponent with
  | none =>
    unfold number at h
    dsimp only at h
    split at h
    · cases h
    · exact .inl (scaledNumber_eq_error h)
  | some e =>
    simp only [number, IsInteger, reduceCtorEq, and_false, false_and, if_false] at h ⊢
    cases habsorb : absorb exponentBound 0 e.digits with
    | mk written left =>
      rw [habsorb] at h
      cases left with
      | nil => exact .inl (scaledNumber_eq_error h)
      | cons d unread' =>
        dsimp only at h
        split at h
        · cases h
        · next hbig =>
          cases h
          obtain ⟨taken, hds, hmore⟩ := absorb_eq_cons habsorb
          refine .inr ⟨e, taken, d, rfl, hds, fun more => ?_⟩
          rw [hmore]
          exact if_neg hbig

/-- What is judged when a numeral has been taken. -/
def judge (n : Numeral) (rest : List Char) : Except Failure (Number × List Char) :=
  match n.number with
  | .ok m => .ok (m, rest)
  | .error unread => .error (.before .numberOutOfRange (unread ++ rest))

/-- Take the exponent of a numeral, if there is one, and judge the numeral. -/
def endNumber (negative : Bool) (whole fraction : List Char) (text : List Char) :
    Except Failure (Number × List Char) :=
  andThen Numeral.readExponent (fun exponent => judge ⟨negative, whole, fraction, exponent⟩) text

theorem readNumber_eq (negative : Bool) (text : List Char) :
    readNumber negative text =
      andThen Numeral.readWhole
        (fun whole => andThen Numeral.readFraction (endNumber negative whole)) text := by
  unfold readNumber Numeral.read endNumber andThen
  cases Numeral.readWhole text with
  | error failure => rfl
  | ok w =>
    simp only [bind, Except.bind]
    cases Numeral.readFraction w.2 with
    | error failure => rfl
    | ok f =>
      simp only
      cases Numeral.readExponent f.2 with
      | error failure => rfl
      | ok e =>
        simp only [pure, Except.pure]
        rfl

theorem judge_settled {n : Numeral} (h : ∀ unread, n.number = .error unread → unread = [])
    (s : List Char) : Settled (judge n) s := by
  cases hn : n.number with
  | ok m => exact .taken [] fun t => by rw [judge, hn]; rfl
  | error unread =>
    obtain rfl := h unread hn
    exact .before fun t => by rw [judge, hn]; rfl

theorem endsDigits_dropWhile (text : List Char) : EndsDigits (text.dropWhile Char.isDigit) := by
  intro c hc
  have hend := List.head?_dropWhile_not Char.isDigit text
  rwa [hc] at hend

/-- An exponent that is out of range at a digit is so whatever stands behind that
    digit: the digits there continue the exponent. -/
theorem endNumber_eq_error {negative : Bool} {whole fraction front taken unread : List Char}
    {e : Exponent} {d : Char} (hdigits : e.digits = taken ++ d :: unread)
    (hall : ∀ c ∈ e.digits, c.isDigit = true)
    (hfront : ∀ ds, front ++ ds ∈ exponentTexts (some ⟨e.negative, ds⟩))
    (hmore : ∀ more, (Numeral.mk negative whole fraction
      (some ⟨e.negative, taken ++ d :: more⟩)).number = .error more) (text : List Char) :
    endNumber negative whole fraction (front ++ (taken ++ [d]) ++ text) =
      .error (.before .numberOutOfRange text) := by
  have hds : ∀ c ∈ taken ++ d :: text.takeWhile Char.isDigit, c.isDigit = true := by
    intro c hc
    simp only [hdigits, List.mem_append, List.mem_cons] at hall hc
    rcases hc with hc | hc | hc
    · exact hall c (.inl hc)
    · exact hall c (.inr (.inl hc))
    · exact List.mem_takeWhile_imp hc
  have hread := readExponent_some_append (by simp) hds
    (hfront (taken ++ d :: text.takeWhile Char.isDigit)) (endsDigits_dropWhile text)
  have htext : front ++ (taken ++ [d]) ++ text =
      front ++ (taken ++ d :: text.takeWhile Char.isDigit) ++ text.dropWhile Char.isDigit := by
    simp [List.takeWhile_append_dropWhile]
  rw [endNumber, andThen, htext, hread]
  simp only [judge, hmore, List.takeWhile_append_dropWhile]

/-- **A number is judged when it has been taken**, but for an exponent that is out of
    range at a digit. -/
theorem endNumber_settled (negative : Bool) (whole fraction s : List Char) :
    Settled (endNumber negative whole fraction) s := by
  by_cases hseen : ∀ exponent rest, Numeral.readExponent s = .ok (exponent, rest) →
      ∀ unread, (Numeral.mk negative whole fraction exponent).number = .error unread → unread = []
  · exact (Numeral.readExponent_settled s).andThen _ fun exponent rest hread =>
      judge_settled (hseen exponent rest hread) rest
  · push Not at hseen
    obtain ⟨exponent, rest, hread, unread, hnumber, hunread⟩ := hseen
    obtain rfl | ⟨e, taken, d, rfl, hdigits, hmore⟩ := Numeral.number_eq_error hnumber
    · exact absurd rfl hunread
    · obtain ⟨hexponent, cs, hcs, rfl⟩ := readExponent_found hread
      obtain ⟨front, hfront, _, rfl, rfl⟩ := Language.mem_mul.1 hcs
      have hfail := endNumber_eq_error hdigits (hexponent e rfl).2
        (fun ds => Language.append_mem_mul hfront rfl) hmore
      have htext : front ++ e.digits ++ rest = front ++ (taken ++ [d]) ++ (unread ++ rest) := by
        simp [hdigits]
      exact .error htext (htext ▸ hfail _) (Nat.zero_le _) fun t _ => hfail t

theorem readNumber_settled (negative : Bool) (s : List Char) :
    Settled (readNumber negative) s := by
  refine Settled.of_eq ?_ (readNumber_eq negative)
  refine (Numeral.readWhole_settled s).andThen _ fun whole rest _ => ?_
  refine (Numeral.readFraction_settled rest).andThen _ fun fraction rest _ => ?_
  exact endNumber_settled negative whole fraction rest

end Json

end ScriptLiteral
