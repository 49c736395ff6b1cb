/-
  Script literals — what is read as JSON is JSON.

  A reader that succeeds has taken a text of what it found: the characters that it
  took are a string, a numeral or a document of the grammar, and what it left
  stands behind them.

  * `readEscape_spells` and `readString_found`: characters of a string, each in one
    of the ways of writing it;
  * `read_found` and `readNumber_found`: a numeral of the grammar;
  * `Reader.Finds` relates what a reader finds to the language of the text that it
    took, and `readItems_found`, `readMembers_found` carry it over brackets;
  * `readValue_finds`: a reader of values finds documents, whose brackets nest no
    deeper than its depth;
  * `literalOfText_eq_ok_iff`: the texts that have a literal are the texts of the
    documents whose brackets nest to the greatest depth at most.
-/
import ScriptLiteral.Proofs.JsonLiteral

namespace ScriptLiteral

namespace Json

/-! ## Strings -/

theorem exists_eq_ofNat {c : Char} {base n : Nat} (h : base ≤ c.toNat ∧ c.toNat < base + n) :
    ∃ k < n, c = Char.ofNat (base + k) := by
  refine ⟨c.toNat - base, by omega, ?_⟩
  rw [Nat.add_sub_cancel' h.1, Char.ofNat_toNat]

theorem hexValue?_eq_some {c : Char} {n : Nat} (h : hexValue? c = some n) :
    n < 0x10 ∧ IsHexDigit n c := by
  have hle : ∀ a b : Char, a ≤ b ↔ a.toNat ≤ b.toNat := fun _ _ => Iff.rfl
  unfold hexValue? at h
  simp only [hle, Char.reduceToNat] at h
  split at h
  · next hdigit =>
    obtain rfl := Option.some.inj h
    exact ⟨Nat.lt_of_lt_of_le (digitValue_lt hdigit) (by decide),
      .inl (digitChar_digitValue hdigit).symm⟩
  · split at h
    · next hlower =>
      obtain rfl := Option.some.inj h
      obtain ⟨k, hk, rfl⟩ : ∃ k < 6, c = Char.ofNat (97 + k) := exists_eq_ofNat (by omega)
      clear h hlower
      unfold IsHexDigit
      revert k
      decide
    · split at h
      · next hupper =>
        obtain rfl := Option.some.inj h
        obtain ⟨k, hk, rfl⟩ : ∃ k < 6, c = Char.ofNat (65 + k) := exists_eq_ofNat (by omega)
        clear h hupper
        unfold IsHexDigit
        revert k
        decide
      · cases h

theorem hexUnit?_eq_some {a b c d : Char} {unit : Nat} (h : hexUnit? a b c d = some unit) :
    unit < 0x10000 ∧ [a, b, c, d] ∈ unitTexts unit := by
  unfold hexUnit? at h
  obtain ⟨a', ha, h⟩ := Option.bind_eq_some_iff.1 h
  obtain ⟨b', hb, h⟩ := Option.bind_eq_some_iff.1 h
  obtain ⟨c', hc, h⟩ := Option.bind_eq_some_iff.1 h
  obtain ⟨d', hd, h⟩ := Option.bind_eq_some_iff.1 h
  obtain rfl : ((a' * 16 + b') * 16 + c') * 16 + d' = unit := Option.some.inj h
  obtain ⟨ha₁, ha₂⟩ := hexValue?_eq_some ha
  obtain ⟨hb₁, hb₂⟩ := hexValue?_eq_some hb
  obtain ⟨hc₁, hc₂⟩ := hexValue?_eq_some hc
  obtain ⟨hd₁, hd₂⟩ := hexValue?_eq_some hd
  have ea : (((a' * 16 + b') * 16 + c') * 16 + d') / 0x1000 = a' := by omega
  have eb : (((a' * 16 + b') * 16 + c') * 16 + d') / 0x100 % 0x10 = b' := by omega
  have ec : (((a' * 16 + b') * 16 + c') * 16 + d') / 0x10 % 0x10 = c' := by omega
  have ed : (((a' * 16 + b') * 16 + c') * 16 + d') % 0x10 = d' := by omega
  refine ⟨by omega, a, b, c, d, rfl, ?_, ?_, ?_, ?_⟩
  · rwa [ea]
  · rwa [eb]
  · rwa [ec]
  · rwa [ed]

theorem hexEscape_eq_ok {s rest : List Char} {unit : Nat} (h : hexEscape s = .ok (unit, rest)) :
    unit < 0x10000 ∧ ∃ ds ∈ unitTexts unit, s = ds ++ rest := by
  unfold hexEscape at h
  split at h
  · next a b c d rest' =>
    split at h
    · next hunit =>
      cases h
      obtain ⟨hlt, hmem⟩ := hexUnit?_eq_some hunit
      exact ⟨hlt, _, hmem, rfl⟩
    · cases h
  · cases h

theorem toNat_ofNat {n : Nat} (h : n < 0xD800 ∨ 0xDFFF < n ∧ n < 0x110000) :
    (Char.ofNat n).toNat = n := by
  rw [Char.toNat_ofNat, if_pos h]

theorem units_pairChar {u v : Nat} (hu : IsLeading u) (hv : IsTrailing v) :
    0x10000 ≤ (pairChar u v).toNat ∧ leadingUnit (pairChar u v) = u ∧
      trailingUnit (pairChar u v) = v := by
  unfold IsLeading at hu
  unfold IsTrailing at hv
  have hnat : (pairChar u v).toNat = (u - 0xD800) * 0x400 + (v - 0xDC00) + 0x10000 :=
    toNat_ofNat (by omega)
  unfold leadingUnit trailingUnit
  rw [hnat]
  omega

theorem readTrailing_eq_ok {u : Nat} {s rest : List Char} {c : Char}
    (h : readTrailing u s = .ok (c, rest)) :
    ∃ v, IsTrailing v ∧ c = pairChar u v ∧ ∃ es ∈ unitTexts v, s = '\\' :: 'u' :: (es ++ rest) := by
  unfold readTrailing at h
  split at h
  · next text =>
    cases hunit : hexEscape text with
    | error e => rw [hunit] at h; cases h
    | ok r =>
      rw [hunit] at h
      simp only [bind, Except.bind] at h
      obtain ⟨v, rest'⟩ := r
      obtain ⟨-, es, hes, rfl⟩ := hexEscape_eq_ok hunit
      split at h
      · next htrailing =>
        obtain ⟨hc, hrest⟩ := Prod.mk.inj (Except.ok.inj h)
        subst hrest
        exact ⟨v, htrailing, hc.symm, es, hes, rfl⟩
      · cases h
  all_goals cases h

theorem readUnicode_spells {s rest : List Char} {c : Char}
    (h : readUnicode s = .ok (c, rest)) : ∃ cs, s = cs ++ rest ∧ Spells c ('\\' :: 'u' :: cs) := by
  unfold readUnicode at h
  cases hunit : hexEscape s with
  | error e => rw [hunit] at h; cases h
  | ok r =>
    rw [hunit] at h
    simp only [bind, Except.bind] at h
    obtain ⟨unit, text⟩ := r
    obtain ⟨hlt, ds, hds, rfl⟩ := hexEscape_eq_ok hunit
    split at h
    · cases h
    · next htrailing =>
      split at h
      · next hleading =>
        obtain ⟨v, hv, hc, es, hes, rfl⟩ := readTrailing_eq_ok h
        have hpair := units_pairChar hleading hv
        rw [← hc] at hpair
        obtain ⟨hlow, hu, hv⟩ := hpair
        refine ⟨ds ++ '\\' :: 'u' :: es, by simp, .pair hlow ?_ ?_⟩
        · rwa [hu]
        · rwa [hv]
      · next hleading =>
        cases h
        have hnat : (Char.ofNat unit).toNat = unit := by
          unfold IsLeading at hleading
          unfold IsTrailing at htrailing
          exact toNat_ofNat (by omega)
        exact ⟨ds, rfl, .unit (hnat.symm ▸ hlt) (hnat.symm ▸ hds)⟩

theorem shortEscape?_eq_some {sign c : Char} (h : shortEscape? sign = some c) :
    (c, sign) ∈ shortEscapes := by
  unfold shortEscape? at h
  split at h
  all_goals cases h
  all_goals decide

/-- **What is taken as an escape is a way of writing its character.** -/
theorem readEscape_spells {s rest : List Char} {c : Char} (h : readEscape s = .ok (c, rest)) :
    ∃ cs, s = cs ++ rest ∧ Spells c ('\\' :: cs) := by
  unfold readEscape at h
  split at h
  · cases h
  · next text =>
    obtain ⟨cs, rfl, hcs⟩ := readUnicode_spells h
    exact ⟨'u' :: cs, rfl, hcs⟩
  · next sign text _ =>
    split at h
    · next hshort =>
      cases h
      exact ⟨[sign], rfl, .short (shortEscape?_eq_some hshort)⟩
    · cases h

theorem mem_charTexts_prod {c : Char} {cs text rest : List Char} (hc : Spells c text)
    (hrest : rest ∈ (cs.map charTexts).prod) : text ++ rest ∈ ((c :: cs).map charTexts).prod := by
  rw [List.map_cons, List.prod_cons]
  exact Language.append_mem_mul hc hrest

/-- **What is taken as a string is a text of it.** -/
theorem readString_found {s cs rest : List Char} (h : readString s = .ok (cs, rest)) :
    ∃ text ∈ (cs.map charTexts).prod, s = text ++ '"' :: rest := by
  fun_induction readString s generalizing cs with
  | case1 => cases h
  | case2 rest' => cases h; exact ⟨[], rfl, rfl⟩
  | case3 => cases h
  | case4 rest₁ c rest₂ hescape ih =>
    cases hs : readString rest₂ with
    | error e => rw [hs] at h; cases h
    | ok r =>
      rw [hs] at h
      cases h
      obtain ⟨text, htext, e⟩ := ih hs
      obtain ⟨escape, rfl, hspells⟩ := readEscape_spells hescape
      exact ⟨'\\' :: escape ++ text, mem_charTexts_prod hspells htext, by simp [e]⟩
  | case5 => cases h
  | case6 c rest₁ hquote hbackslash hcontrol ih =>
    cases hs : readString rest₁ with
    | error e => rw [hs] at h; cases h
    | ok r =>
      rw [hs] at h
      cases h
      obtain ⟨text, htext, rfl⟩ := ih hs
      have hspells : Spells c [c] := .raw (Nat.le_of_not_lt hcontrol) hquote hbackslash
      exact ⟨[c] ++ text, mem_charTexts_prod hspells htext, rfl⟩

/-! ## Numbers -/

theorem digits_found {c : Char} (hc : c.isDigit = true) (rest : List Char) :
    (∀ d ∈ c :: rest.takeWhile Char.isDigit, d.isDigit = true) ∧
      c :: rest = c :: rest.takeWhile Char.isDigit ++ rest.dropWhile Char.isDigit :=
  ⟨List.forall_mem_cons.2 ⟨hc, fun _ hd => List.mem_takeWhile_imp hd⟩,
    congrArg (c :: ·) List.takeWhile_append_dropWhile.symm⟩

theorem readWhole_found {s ds rest : List Char} (h : Numeral.readWhole s = .ok (ds, rest)) :
    CanonicalDigits ds ∧ s = ds ++ rest := by
  unfold Numeral.readWhole at h
  split at h
  · cases h
  · split at h
    · cases h
    · cases h
      exact ⟨by decide, rfl⟩
  · next c rest' hzero =>
    split at h
    · next hc =>
      cases h
      obtain ⟨hdigits, e⟩ := digits_found hc rest'
      refine ⟨⟨List.cons_ne_nil _ _, hdigits, fun hhead => ?_⟩, e⟩
      -- a zero that is not alone would have been refused
      obtain rfl : c = '0' := Option.some.inj hhead
      cases rest' with
      | nil => rfl
      | cons d rest' => exact absurd rfl (hzero d rest' rfl)
    · cases h

theorem readFraction_found {s ds rest : List Char} (h : Numeral.readFraction s = .ok (ds, rest)) :
    (∀ c ∈ ds, c.isDigit = true) ∧ s = fractionChars ds ++ rest := by
  unfold Numeral.readFraction at h
  split at h
  · cases h
  · next c rest' =>
    split at h
    · next hc =>
      cases h
      obtain ⟨hdigits, e⟩ := digits_found hc rest'
      exact ⟨hdigits, congrArg ('.' :: ·) e⟩
    · cases h
  · cases h
    exact ⟨nofun, rfl⟩

theorem readExponentDigits_found {negative : Bool} {s rest : List Char} {e : Exponent}
    (h : Numeral.readExponentDigits negative s = .ok (e, rest)) :
    e.negative = negative ∧ e.digits ≠ [] ∧ (∀ c ∈ e.digits, c.isDigit = true) ∧
      s = e.digits ++ rest := by
  unfold Numeral.readExponentDigits at h
  split at h
  · cases h
  · next c rest' =>
    split at h
    · next hc =>
      cases h
      obtain ⟨hdigits, e⟩ := digits_found hc rest'
      exact ⟨rfl, List.cons_ne_nil _ _, hdigits, e⟩
    · cases h

theorem readSignedExponent_found {s rest : List Char} {e : Exponent}
    (h : Numeral.readSignedExponent s = .ok (e, rest)) :
    e.digits ≠ [] ∧ (∀ c ∈ e.digits, c.isDigit = true) ∧
      ∃ sign ∈ (if e.negative then {['-']} else {[], ['+']} : Language Char),
        s = sign ++ (e.digits ++ rest) := by
  unfold Numeral.readSignedExponent at h
  split at h
  · obtain ⟨hsign, hne, hdigits, rfl⟩ := readExponentDigits_found h
    rw [hsign]
    exact ⟨hne, hdigits, ['+'], .inr rfl, rfl⟩
  · obtain ⟨hsign, hne, hdigits, rfl⟩ := readExponentDigits_found h
    rw [hsign]
    exact ⟨hne, hdigits, ['-'], rfl, rfl⟩
  · obtain ⟨hsign, hne, hdigits, rfl⟩ := readExponentDigits_found h
    rw [hsign]
    exact ⟨hne, hdigits, [], .inl rfl, rfl⟩

theorem readExponent_found {s rest : List Char} {e : Option Exponent}
    (h : Numeral.readExponent s = .ok (e, rest)) :
    (∀ e', e = some e' → e'.digits ≠ [] ∧ ∀ c ∈ e'.digits, c.isDigit = true) ∧
      ∃ cs ∈ exponentTexts e, s = cs ++ rest := by
  unfold Numeral.readExponent at h
  split at h
  · next mark rest' =>
    split at h
    · next hmark =>
      cases hsigned : Numeral.readSignedExponent rest' with
      | error failure => rw [hsigned] at h; cases h
      | ok r =>
        rw [hsigned] at h
        obtain ⟨e', rest''⟩ := r
        cases h
        obtain ⟨hne, hdigits, sign, hsign, rfl⟩ := readSignedExponent_found hsigned
        have hmark' : [mark] ∈ ({['e'], ['E']} : Language Char) := by
          rcases hmark with rfl | rfl
          · exact .inl rfl
          · exact .inr rfl
        refine ⟨?_, [mark] ++ sign ++ e'.digits, ?_, by simp⟩
        · rintro _ ⟨⟩
          exact ⟨hne, hdigits⟩
        · exact Language.append_mem_mul (Language.append_mem_mul hmark' hsign) rfl
    · cases h
      exact ⟨nofun, [], Language.nil_mem_one, rfl⟩
  · cases h
    exact ⟨nofun, [], Language.nil_mem_one, rfl⟩

/-- **What is taken as a numeral is a text of it**, and it is one of the grammar. -/
theorem read_found {negative : Bool} {s rest : List Char} {n : Numeral}
    (h : Numeral.read negative s = .ok (n, rest)) :
    n.negative = negative ∧ n.Grammatical ∧
      ∃ cs, PlainNumber.signChars negative ++ cs ∈ numeralTexts n ∧ s = cs ++ rest := by
  unfold Numeral.read at h
  cases hw : Numeral.readWhole s with
  | error failure => rw [hw] at h; cases h
  | ok w =>
    obtain ⟨whole, rest₁⟩ := w
    rw [hw] at h
    simp only [bind, Except.bind] at h
    cases hf : Numeral.readFraction rest₁ with
    | error failure => rw [hf] at h; cases h
    | ok f =>
      obtain ⟨fraction, rest₂⟩ := f
      rw [hf] at h
      dsimp only at h
      cases he : Numeral.readExponent rest₂ with
      | error failure => rw [he] at h; cases h
      | ok e =>
        obtain ⟨exponent, rest₃⟩ := e
        rw [he] at h
        cases h
        obtain ⟨hwhole, rfl⟩ := readWhole_found hw
        obtain ⟨hfraction, rfl⟩ := readFraction_found hf
        obtain ⟨hexponent, es, hes, rfl⟩ := readExponent_found he
        refine ⟨rfl, ⟨hwhole, hfraction, hexponent⟩,
          whole ++ (fractionChars fraction ++ es), ?_, by simp⟩
        have hmem : (PlainNumber.mk negative whole fraction).chars ++ es ∈
            numeralTexts ⟨negative, whole, fraction, exponent⟩ := Language.append_mem_mul rfl hes
        simpa only [PlainNumber.chars, fractionChars, List.append_assoc] using hmem

theorem readNumber_found {negative : Bool} {s rest : List Char} {n : Number}
    (h : readNumber negative s = .ok (n, rest)) :
    ∃ t : Token, t.number = n ∧
      ∃ cs, PlainNumber.signChars negative ++ cs ∈ numeralTexts t.numeral ∧ s = cs ++ rest := by
  unfold readNumber at h
  split at h
  · cases h
  · next numeral _ hread =>
    split at h
    · next hnumber =>
      cases h
      obtain ⟨-, hgrammatical, cs, hcs, rfl⟩ := read_found hread
      exact ⟨⟨numeral, hgrammatical, n, hnumber⟩, rfl, cs, hcs, rfl⟩
    · cases h

/-! ## What stands between brackets -/

theorem mem_blanks_of_isBlank {ws : List Char} (h : ∀ c ∈ ws, isBlank c = true) : ws ∈ blanks := by
  intro c hc
  have hblank := h c hc
  simp only [isBlank, Bool.or_eq_true, beq_iff_eq] at hblank
  simp only [List.mem_cons, List.not_mem_nil, or_false]
  tauto

theorem exists_blanks (s : List Char) : ∃ ws ∈ blanks, s = ws ++ skipBlanks s :=
  ⟨s.takeWhile isBlank, mem_blanks_of_isBlank fun _ hc => List.mem_takeWhile_imp hc,
    List.takeWhile_append_dropWhile.symm⟩

section
variable {α : Type} {R : α → Language Char → Prop} {item : Reader α}

/-- What the reader finds is related to a language, and a text of that language is
    what it takes, with blanks in front. -/
def Reader.Finds (r : Reader α) (R : α → Language Char → Prop) : Prop :=
  ∀ s a rest, r.run s = .ok (a, rest) →
    ∃ texts, R a texts ∧ ∃ ws ∈ blanks, ∃ cs ∈ texts, s = ws ++ (cs ++ rest)

/-! ### Items -/

theorem readMoreItems_found (h : item.Finds R) {s rest : List Char} {as : List α}
    (hread : readMoreItems item s = .ok (as, rest)) :
    ∃ texts, List.Forall₂ R as texts ∧
      ∃ ws ∈ blanks, ∃ more ∈ commaTexts texts, s = ws ++ (more ++ ']' :: rest) := by
  obtain ⟨ws, hws, hs⟩ := exists_blanks s
  fun_induction readMoreItems item s generalizing as ws with
  | case2 s rest' hskip =>
    cases hread
    exact ⟨[], .nil, ws, hws, [], Language.nil_mem_one, hskip ▸ hs⟩
  | case6 s behind hskip a rest' hrun as' rest'' hothers _ ih =>
    cases hread
    obtain ⟨text, ha, ws₁, hws₁, cs, hcs, rfl⟩ := h _ _ _ hrun
    obtain ⟨ws₂, hws₂, hs₂⟩ := exists_blanks rest'
    obtain ⟨texts, has, ws₃, hws₃, more, hmore, rfl⟩ := ih hothers ws₂ hws₂ hs₂
    refine ⟨text :: texts, .cons ha has, ws, hws, ',' :: (ws₁ ++ (cs ++ (ws₃ ++ more))),
      mem_commaTexts_cons.2 ⟨_, mem_listed_cons.2 ⟨ws₁, hws₁, cs, hcs, ws₃, hws₃, more, hmore, rfl⟩,
        rfl⟩, ?_⟩
    rw [hs, hskip]
    simp
  | _ => cases hread

/-- **What is taken as items stands between brackets.** -/
theorem readItems_found (h : item.Finds R) {s rest : List Char} {as : List α}
    (hread : readItems item s = .ok (as, rest)) :
    ∃ texts, List.Forall₂ R as texts ∧ ∃ cs ∈ listed texts, s = cs ++ ']' :: rest := by
  obtain ⟨ws, hws, hs⟩ := exists_blanks s
  unfold readItems at hread
  split at hread
  · cases hread
  · next hskip =>
    cases hread
    exact ⟨[], .nil, ws, hws, hskip ▸ hs⟩
  · split at hread
    · cases hread
    · next hrun =>
      split at hread
      · cases hread
      · next hothers =>
        cases hread
        obtain ⟨text, ha, ws₁, hws₁, cs, hcs, rfl⟩ := h _ _ _ hrun
        obtain ⟨texts, has, ws₂, hws₂, more, hmore, rfl⟩ := readMoreItems_found h hothers
        exact ⟨text :: texts, .cons ha has, ws₁ ++ (cs ++ (ws₂ ++ more)),
          mem_listed_cons.2 ⟨ws₁, hws₁, cs, hcs, ws₂, hws₂, more, hmore, rfl⟩, by simp⟩

/-! ### Members -/

/-- The language of a member: key, colon, and a text related to the value. -/
def MemberOf (R : α → Language Char → Prop) (m : String × α) (texts : Language Char) : Prop :=
  ∃ value, R m.2 value ∧ texts = stringTexts m.1 * padded {[':']} * value

theorem readMember_found (h : item.Finds R) {s rest : List Char} {m : String × α}
    (hread : readMember item s = .ok (m, rest)) :
    ∃ texts, MemberOf R m texts ∧ ∃ cs, '"' :: cs ∈ texts ∧ s = cs ++ rest := by
  unfold readMember at hread
  split at hread
  · cases hread
  · next key rest₁ hkey =>
    obtain ⟨chars, hchars, rfl⟩ := readString_found hkey
    obtain ⟨ws, hws, hrest₁⟩ := exists_blanks rest₁
    split at hread
    · cases hread
    · next rest₂ hskip =>
      split at hread
      · cases hread
      · next a _ hrun =>
        cases hread
        obtain ⟨value, ha, ws', hws', cs, hcs, rfl⟩ := h _ _ _ hrun
        have hkeyText : '"' :: (chars ++ ['"']) ∈ stringTexts (String.ofList key) :=
          mem_enclosed.2 ⟨chars, String.toList_ofList ▸ hchars, rfl⟩
        have hcolon : ws ++ ([':'] ++ ws') ∈ padded {[':']} :=
          mem_padded.2 ⟨ws, hws, [':'], rfl, ws', hws', rfl⟩
        refine ⟨_, ⟨value, ha, rfl⟩, chars ++ '"' :: (ws ++ ':' :: (ws' ++ cs)), ?_, ?_⟩
        · have hmem :=
            Language.append_mem_mul (Language.append_mem_mul hkeyText hcolon) hcs
          simpa using hmem
        · rw [hrest₁, hskip]
          simp
    · cases hread

theorem readMoreMembers_found (h : item.Finds R) {s rest : List Char} {ms : List (String × α)}
    (hread : readMoreMembers item s = .ok (ms, rest)) :
    ∃ texts, List.Forall₂ (MemberOf R) ms texts ∧
      ∃ ws ∈ blanks, ∃ more ∈ commaTexts texts, s = ws ++ (more ++ '\x7d' :: rest) := by
  obtain ⟨ws, hws, hs⟩ := exists_blanks s
  fun_induction readMoreMembers item s generalizing ms ws with
  | case2 s rest' hskip =>
    cases hread
    exact ⟨[], .nil, ws, hws, [], Language.nil_mem_one, hskip ▸ hs⟩
  | case6 s behind hskip quoted hquote m rest' hmember ms' rest'' hothers ih =>
    cases hread
    obtain ⟨text, hm, cs, hcs, rfl⟩ := readMember_found h hmember
    obtain ⟨ws₁, hws₁, hs₁⟩ := exists_blanks behind
    obtain ⟨ws₂, hws₂, hs₂⟩ := exists_blanks rest'
    obtain ⟨texts, hms, ws₃, hws₃, more, hmore, rfl⟩ := ih hothers ws₂ hws₂ hs₂
    refine ⟨text :: texts, .cons hm hms, ws, hws, ',' :: (ws₁ ++ ('"' :: cs ++ (ws₃ ++ more))),
      mem_commaTexts_cons.2 ⟨_, mem_listed_cons.2 ⟨ws₁, hws₁, '"' :: cs, hcs, ws₃, hws₃, more, hmore,
        rfl⟩, rfl⟩, ?_⟩
    rw [hs, hskip, hs₁, hquote]
    simp
  | _ => cases hread

/-- **What is taken as members stands between braces.** -/
theorem readMembers_found (h : item.Finds R) {s rest : List Char} {ms : List (String × α)}
    (hread : readMembers item s = .ok (ms, rest)) :
    ∃ texts, List.Forall₂ (MemberOf R) ms texts ∧ ∃ cs ∈ listed texts, s = cs ++ '\x7d' :: rest := by
  obtain ⟨ws, hws, hs⟩ := exists_blanks s
  unfold readMembers at hread
  split at hread
  · cases hread
  · next hskip =>
    cases hread
    exact ⟨[], .nil, ws, hws, hskip ▸ hs⟩
  · next quoted hquote =>
    split at hread
    · cases hread
    · next hmember =>
      split at hread
      · cases hread
      · next hothers =>
        cases hread
        obtain ⟨text, hm, cs, hcs, rfl⟩ := readMember_found h hmember
        obtain ⟨texts, hms, ws₂, hws₂, more, hmore, rfl⟩ := readMoreMembers_found h hothers
        refine ⟨text :: texts, .cons hm hms, ws ++ ('"' :: cs ++ (ws₂ ++ more)),
          mem_listed_cons.2 ⟨ws, hws, '"' :: cs, hcs, ws₂, hws₂, more, hmore, rfl⟩, ?_⟩
        rw [hs, hquote]
        simp
  · cases hread

end

/-! ## Documents -/

/-- The language of a document with this tree, whose brackets nest at most `k`
    deep. -/
def IsDocument (k : Nat) (j : Json) (texts : Language Char) : Prop :=
  ∃ d : Document, d.json = j ∧ d.depth ≤ k ∧ d.texts = texts

namespace Document

theorem exists_items {k : Nat} {js : List Json} {texts : List (Language Char)}
    (h : List.Forall₂ (IsDocument k) js texts) :
    ∃ items, itemTrees items = js ∧ itemDepth items ≤ k ∧ itemTexts items = texts := by
  induction h with
  | nil => exact ⟨[], rfl, Nat.zero_le _, rfl⟩
  | cons hd _ ih =>
    obtain ⟨d, rfl, hdepth, rfl⟩ := hd
    obtain ⟨items, rfl, hitems, rfl⟩ := ih
    exact ⟨d :: items, rfl, max_le hdepth hitems, rfl⟩

theorem exists_members {k : Nat} {ms : List (String × Json)} {texts : List (Language Char)}
    (h : List.Forall₂ (MemberOf (IsDocument k)) ms texts) :
    ∃ members, memberTrees members = ms ∧ memberDepth members ≤ k ∧
      memberTexts members = texts := by
  induction h with
  | nil => exact ⟨[], rfl, Nat.zero_le _, rfl⟩
  | @cons m _ _ _ hm _ ih =>
    obtain ⟨key, j⟩ := m
    obtain ⟨_, ⟨d, rfl, hdepth, rfl⟩, rfl⟩ := hm
    obtain ⟨members, rfl, hmembers, rfl⟩ := ih
    exact ⟨(key, d) :: members, rfl, max_le hdepth hmembers, rfl⟩

end Document

theorem readWord_found {word s rest : List Char} (h : readWord word s = .ok rest) :
    s = word ++ rest := by
  induction word generalizing s with
  | nil => cases h; rfl
  | cons w word ih =>
    cases s with
    | nil => cases h
    | cons c s =>
      unfold readWord at h
      split at h
      · next hc => rw [hc, ih h]; rfl
      · cases h

/-- What is taken right here is a document, if what nested readers find are
    documents. -/
theorem readToken_found {nested : Option (Reader Json)} {k : Nat}
    (hnested : ∀ value, nested = some value → ∃ i, k = i + 1 ∧ value.Finds (IsDocument i))
    {s rest : List Char} {j : Json} (h : readToken nested s = .ok (j, rest)) :
    ∃ texts, IsDocument k j texts ∧ ∃ cs ∈ texts, s = cs ++ rest := by
  unfold readToken at h
  split at h
  · cases h
  · obtain ⟨hword, rfl⟩ := map_eq_ok h
    exact ⟨_, ⟨.null, rfl, Nat.zero_le _, rfl⟩, _, rfl, congrArg _ (readWord_found hword)⟩
  · obtain ⟨hword, rfl⟩ := map_eq_ok h
    exact ⟨_, ⟨.bool true, rfl, Nat.zero_le _, rfl⟩, _, rfl, congrArg _ (readWord_found hword)⟩
  · obtain ⟨hword, rfl⟩ := map_eq_ok h
    exact ⟨_, ⟨.bool false, rfl, Nat.zero_le _, rfl⟩, _, rfl, congrArg _ (readWord_found hword)⟩
  · obtain ⟨chars, hread, rfl⟩ := mapResult_eq_ok h
    obtain ⟨text, htext, rfl⟩ := readString_found hread
    have hmem : '"' :: (text ++ ['"']) ∈ stringTexts (String.ofList chars) :=
      mem_enclosed.2 ⟨text, String.toList_ofList ▸ htext, rfl⟩
    exact ⟨_, ⟨.string (String.ofList chars), rfl, Nat.zero_le _, rfl⟩, _, hmem, by simp⟩
  · obtain ⟨n, hread, rfl⟩ := mapResult_eq_ok h
    obtain ⟨t, rfl, cs, hcs, rfl⟩ := readNumber_found hread
    exact ⟨_, ⟨.number t, rfl, Nat.zero_le _, rfl⟩, '-' :: cs, hcs, rfl⟩
  · split at h
    · cases h
    · next value =>
      obtain ⟨js, hread, rfl⟩ := mapResult_eq_ok h
      obtain ⟨i, rfl, hvalue⟩ := hnested value rfl
      obtain ⟨_, hjs, cs, hcs, rfl⟩ := readItems_found hvalue hread
      obtain ⟨items, rfl, hdepth, rfl⟩ := Document.exists_items hjs
      exact ⟨_, ⟨.array items, rfl, Nat.succ_le_succ hdepth, rfl⟩, _,
        mem_enclosed.2 ⟨cs, hcs, rfl⟩, by simp⟩
  · split at h
    · cases h
    · next value =>
      obtain ⟨ms, hread, rfl⟩ := mapResult_eq_ok h
      obtain ⟨i, rfl, hvalue⟩ := hnested value rfl
      obtain ⟨_, hms, cs, hcs, rfl⟩ := readMembers_found hvalue hread
      obtain ⟨members, rfl, hdepth, rfl⟩ := Document.exists_members hms
      exact ⟨_, ⟨.object members, rfl, Nat.succ_le_succ hdepth, rfl⟩, _,
        mem_enclosed.2 ⟨cs, hcs, rfl⟩, by simp⟩
  · split at h
    · obtain ⟨n, hread, rfl⟩ := mapResult_eq_ok h
      obtain ⟨t, rfl, cs, hcs, e⟩ := readNumber_found hread
      exact ⟨_, ⟨.number t, rfl, Nat.zero_le _, rfl⟩, cs, hcs, e⟩
    · cases h

theorem readNested_finds {nested : Option (Reader Json)} {k : Nat}
    (hnested : ∀ value, nested = some value → ∃ i, k = i + 1 ∧ value.Finds (IsDocument i)) :
    (readNested nested).Finds (IsDocument k) := by
  intro s j rest h
  obtain ⟨ws, hws, hs⟩ := exists_blanks s
  obtain ⟨texts, hj, cs, hcs, e⟩ := readToken_found hnested h
  exact ⟨texts, hj, ws, hws, cs, hcs, e ▸ hs⟩

/-- **What is taken as a value is a document**, and its brackets nest no deeper
    than the reader goes. -/
theorem readValue_finds (k : Nat) : (readValue k).Finds (IsDocument k) := by
  induction k with
  | zero => exact readNested_finds nofun
  | succ k ih =>
    refine readNested_finds fun value hvalue => ?_
    obtain rfl := Option.some.inj hvalue
    exact ⟨k, rfl, ih⟩

/-- **What is read is a text of a document** with blanks around it. -/
theorem exists_document_of_parse {text : String} {j : Json} (h : parse text = .ok j) :
    ∃ d : Document, d.json = j ∧ d.depth ≤ greatestDepth ∧ text.toList ∈ padded d.texts := by
  unfold parse at h
  split at h
  · next hread =>
    cases h
    unfold readText at hread
    split at hread
    · cases hread
    · next rest hvalue =>
      obtain ⟨_, ⟨d, rfl, hdepth, rfl⟩, ws, hws, cs, hcs, e⟩ := readValue_finds _ _ _ _ hvalue
      obtain ⟨ws', hws', hrest⟩ := exists_blanks rest
      split at hread
      · next hskip =>
        cases hread
        rw [hskip, List.append_nil] at hrest
        exact ⟨d, rfl, hdepth, mem_padded.2 ⟨ws, hws, cs, hcs, ws', hws', hrest ▸ e⟩⟩
      · cases hread
  · cases h

/-- **The JSON texts that have a literal are the texts of documents**, with blanks
    around them, in which no more brackets are open at once than may be; and the
    literal is that of what the document says. -/
theorem literalOfText_eq_ok_iff (text t : String) :
    literalOfText text = .ok t ↔
      ∃ d : Document, d.depth ≤ greatestDepth ∧ text.toList ∈ padded d.texts ∧
        d.value.literal = .ok t := by
  constructor
  · intro h
    have hplain : Ensures (parse text) fun j => j.toValue.Plain := fun j _ => plain_toValue j
    rw [literalOfText_eq, literalFrom_eq_ok_iff hplain] at h
    obtain ⟨j, hparse, hliteral⟩ := h
    obtain ⟨d, rfl, hdepth, htext⟩ := exists_document_of_parse hparse
    exact ⟨d, hdepth, htext, d.toValue_json ▸ hliteral⟩
  · rintro ⟨d, hdepth, htext, hliteral⟩
    rw [literalOfText, parse_texts hdepth htext]
    simp only [d.toValue_json, hliteral]
    rfl

end Json

end ScriptLiteral
