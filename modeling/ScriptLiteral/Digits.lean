/-
  Script literals — powers and canonical decimal digits.

  `twoTo n` and `tenTo n` are the powers that binary and decimal formats are made
  of.

  The canonical digits of a number are its decimal digits without a superfluous
  zero in front.  `CanonicalDigits` says so of a list of characters, and such
  lists are exactly the `Nat.toDigits 10 n` (`canonicalDigits_toDigits`,
  `toDigits_ofDigitChars`).
-/
namespace ScriptLiteral

/-! ## Powers -/

/-- Two to the power of `n`. -/
def twoTo (n : Nat) : Nat := Nat.pow 2 n

/-- Ten to the power of `n`. -/
def tenTo (n : Nat) : Nat := Nat.pow 10 n

@[simp] theorem twoTo_zero : twoTo 0 = 1 := rfl

theorem twoTo_succ (n : Nat) : twoTo (n + 1) = twoTo n * 2 := rfl

theorem twoTo_pos (n : Nat) : 0 < twoTo n := Nat.two_pow_pos n

theorem twoTo_add (m n : Nat) : twoTo (m + n) = twoTo m * twoTo n := Nat.pow_add 2 m n

@[simp] theorem tenTo_zero : tenTo 0 = 1 := rfl

theorem tenTo_succ (n : Nat) : tenTo (n + 1) = tenTo n * 10 := rfl

theorem tenTo_pos (n : Nat) : 0 < tenTo n := Nat.pow_pos (by decide)

/-! ## Single digits -/

/-- The number that a digit stands for. -/
def digitValue (c : Char) : Nat := c.toNat - '0'.toNat

theorem isDigit_iff {c : Char} : c.isDigit = true ↔ 48 ≤ c.toNat ∧ c.toNat ≤ 57 := by
  simp [Char.isDigit, UInt32.le_iff_toNat_le]

theorem digitValue_lt {c : Char} (h : c.isDigit = true) : digitValue c < 10 := by
  have := isDigit_iff.1 h
  simp only [digitValue, Char.reduceToNat]
  omega

theorem digitChar_eq_ofNat : ∀ n < 10, Nat.digitChar n = Char.ofNat (48 + n) := by decide

theorem digitChar_digitValue {c : Char} (h : c.isDigit = true) :
    Nat.digitChar (digitValue c) = c := by
  have h' := isDigit_iff.1 h
  rw [digitChar_eq_ofNat _ (digitValue_lt h)]
  have e : 48 + digitValue c = c.toNat := by
    simp only [digitValue, Char.reduceToNat]
    omega
  rw [e, Char.ofNat_toNat]

/-! ## Lists of digits -/

/-- Decimal digits, at least one, and no zero in front of another digit. -/
def CanonicalDigits (cs : List Char) : Prop :=
  cs ≠ [] ∧ (∀ c ∈ cs, c.isDigit = true) ∧ (cs.head? = some '0' → cs = ['0'])

-- One by one, not by a search through all characters, which is decidable, too.
instance (cs : List Char) : Decidable (CanonicalDigits cs) :=
  have : Decidable (∀ c ∈ cs, c.isDigit = true) := List.decidableBAll _ cs
  inferInstanceAs (Decidable (_ ∧ _ ∧ _))

theorem ofDigitChars_concat (cs : List Char) (c : Char) :
    Nat.ofDigitChars 10 (cs ++ [c]) 0 = 10 * Nat.ofDigitChars 10 cs 0 + digitValue c := by
  rw [Nat.ofDigitChars_append, Nat.ofDigitChars_cons, Nat.ofDigitChars_nil]
  rfl

theorem le_ofDigitChars (cs : List Char) (n : Nat) : n ≤ Nat.ofDigitChars 10 cs n := by
  induction cs generalizing n with
  | nil => exact Nat.le_refl n
  | cons c cs ih =>
    rw [Nat.ofDigitChars_cons]
    have := ih (10 * n + (c.toNat - '0'.toNat))
    omega

theorem CanonicalDigits.pos {c : Char} {cs : List Char} (h : CanonicalDigits (c :: cs))
    (hc : c ≠ '0') : 0 < Nat.ofDigitChars 10 (c :: cs) 0 := by
  have hd := isDigit_iff.1 (h.2.1 c (List.mem_cons_self ..))
  have h0 : c.toNat ≠ 48 := fun e => hc (Char.toNat_inj.1 e)
  rw [Nat.ofDigitChars_cons, Nat.ofDigitChars_eq_ofDigitChars_zero]
  have hp : 0 < 10 ^ cs.length * (10 * 0 + (c.toNat - '0'.toNat)) :=
    Nat.mul_pos (Nat.pow_pos (by decide)) (by simp only [Char.reduceToNat]; omega)
  omega

theorem CanonicalDigits.init {c d : Char} {cs : List Char}
    (h : CanonicalDigits (c :: cs ++ [d])) : CanonicalDigits (c :: cs) ∧ c ≠ '0' := by
  have hc : c ≠ '0' := by
    rintro rfl
    have := h.2.2 rfl
    simp at this
  refine ⟨⟨by simp, fun x hx => h.2.1 x (List.mem_append_left _ hx), fun he => ?_⟩, hc⟩
  exact absurd (Option.some.inj he) hc

/-- **Canonical digits are the digits of the number they denote.** -/
theorem toDigits_ofDigitChars {cs : List Char} (h : CanonicalDigits cs) :
    Nat.toDigits 10 (Nat.ofDigitChars 10 cs 0) = cs := by
  obtain ⟨n, hn⟩ : ∃ n, cs.length = n := ⟨_, rfl⟩
  induction n generalizing cs with
  | zero => exact absurd (List.length_eq_zero_iff.1 hn) h.1
  | succ n ih =>
    obtain ⟨l, d, rfl⟩ : ∃ l d, cs = l ++ [d] :=
      ⟨cs.dropLast, cs.getLast h.1, (List.dropLast_concat_getLast h.1).symm⟩
    have hd := h.2.1 d (by simp)
    have hlast : Nat.toDigits 10 (digitValue d) = [d] := by
      rw [Nat.toDigits_of_lt_base (digitValue_lt hd), digitChar_digitValue hd]
    rw [ofDigitChars_concat]
    rcases l with _ | ⟨c, l⟩
    · simpa using hlast
    · obtain ⟨h₁, h₂⟩ := h.init
      rw [← Nat.toDigits_append_toDigits (by decide) (h₁.pos h₂) (digitValue_lt hd), hlast,
        ih h₁ (by simpa using hn)]

/-- **The digits of a number are canonical.** -/
theorem canonicalDigits_toDigits (n : Nat) : CanonicalDigits (Nat.toDigits 10 n) := by
  refine ⟨Nat.toDigits_ne_nil,
    fun c hc => Nat.isDigit_of_mem_toDigits (by decide) (by decide) hc, fun h => ?_⟩
  induction n using Nat.strongRecOn with
  | ind n ih =>
    by_cases hn : n < 10
    · rw [Nat.toDigits_of_lt_base hn] at h ⊢
      exact congrArg (· :: []) (Option.some.inj h)
    · rw [Nat.toDigits_of_base_le (by decide) (by omega)] at h
      have hh : (Nat.toDigits 10 (n / 10)).head? = some '0' := by
        rcases e : Nat.toDigits 10 (n / 10) with _ | ⟨c, cs⟩
        · exact absurd e Nat.toDigits_ne_nil
        · rw [e] at h; exact h
      have h₁ := ih (n / 10) (by omega) hh
      have h₂ : Nat.ofDigitChars 10 (Nat.toDigits 10 (n / 10)) 0 = n / 10 :=
        Nat.ofDigitChars_ten_toDigits
      rw [h₁] at h₂
      have h₃ : Nat.ofDigitChars 10 ['0'] 0 = 0 := rfl
      omega

end ScriptLiteral
