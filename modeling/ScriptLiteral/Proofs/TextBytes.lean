/-
  Script literals — texts that start with the same bytes.

  A text is a list of characters and a place in it a number of bytes, so two texts
  that agree up to a place may part in the middle of a character.

  * `Agree n` says of two texts that they have `n` bytes and the same first `n`;
  * `agree_append_iff` and `exists_append_of_agree`: characters whose bytes are
    among those are in both texts, as no character's bytes start another's;
  * `Alike` says of two characters that they are one, or that both are above the
    seven-bit characters, and `exists_alike` that the first characters of two texts
    are so if their first bytes are the same.
-/
import Mathlib
import ScriptLiteral.Json.Reader

namespace ScriptLiteral

namespace Json

/-! ## Bytes -/

theorem bytes_append (s t : List Char) : bytes (s ++ t) = bytes s ++ bytes t :=
  List.flatMap_append

theorem byteCount_append (s t : List Char) : byteCount (s ++ t) = byteCount s + byteCount t := by
  rw [byteCount, bytes_append, List.length_append]
  rfl

theorem byteCount_cons (c : Char) (s : List Char) :
    byteCount (c :: s) = c.utf8Size + byteCount s := by
  rw [byteCount, bytes, List.flatMap_cons, List.length_append, String.length_utf8EncodeChar]
  rfl

theorem byteCount_cons_pos (c : Char) (s : List Char) : 0 < byteCount (c :: s) := by
  rw [byteCount_cons]
  exact Nat.add_pos_left c.utf8Size_pos _

theorem first_byte (c : Char) :
    ∃ b more, String.utf8EncodeChar c = b :: more ∧
      (b.toNat = c.toNat ∧ c.toNat < 0x80 ∨ 0x80 ≤ b.toNat ∧ 0x80 ≤ c.toNat) := by
  have hnat : c.toNat = c.val.toNat := rfl
  unfold String.utf8EncodeChar
  dsimp only
  split
  · exact ⟨_, _, rfl, .inl ⟨by rw [UInt8.toNat_ofNat']; omega, by omega⟩⟩
  · have hlead : ∀ n, 0x80 ≤ n → n < 0x100 → 0x80 ≤ (UInt8.ofNat n).toNat := by
      intro n hn hlt
      rwa [UInt8.toNat_ofNat', Nat.mod_eq_of_lt hlt]
    split
    · exact ⟨_, _, rfl, .inr ⟨hlead _ (by omega) (by omega), by omega⟩⟩
    · split
      · exact ⟨_, _, rfl, .inr ⟨hlead _ (by omega) (by omega), by omega⟩⟩
      · exact ⟨_, _, rfl, .inr ⟨hlead _ (by omega) (by omega), by omega⟩⟩

/-- The bytes of a character start no text but those that start with it. -/
theorem eq_of_bytes_prefix {c d : Char} {t : List Char}
    (h : String.utf8EncodeChar c <+: bytes (d :: t)) : c = d := by
  obtain ⟨more, h⟩ := h
  have harray := congrArg List.toByteArray h
  rw [bytes, List.flatMap_cons, List.toByteArray_append, List.toByteArray_append] at harray
  have hdecoded := congrArg (ByteArray.utf8DecodeChar? · 0) harray
  simpa only [ByteArray.utf8DecodeChar?_utf8EncodeChar_append, Option.some.injEq] using hdecoded

/-! ## Agreement -/

/-- Both texts have `n` bytes, and the same ones. -/
def Agree (n : Nat) (s t : List Char) : Prop :=
  n ≤ byteCount s ∧ (bytes s).take n = (bytes t).take n

theorem Agree.le_byteCount {n : Nat} {s t : List Char} (h : Agree n s t) : n ≤ byteCount t := by
  have hlength : min n (byteCount s) = min n (byteCount t) := by
    simpa only [List.length_take, byteCount] using congrArg List.length h.2
  have hs := h.1
  omega

theorem Agree.symm {n : Nat} {s t : List Char} (h : Agree n s t) : Agree n t s :=
  ⟨h.le_byteCount, h.2.symm⟩

theorem Agree.mono {m n : Nat} {s t : List Char} (h : Agree n s t) (hm : m ≤ n) : Agree m s t := by
  refine ⟨Nat.le_trans hm h.1, ?_⟩
  have htake := congrArg (List.take m) h.2
  rwa [List.take_take, List.take_take, Nat.min_eq_left hm] at htake

theorem agree_append_iff {n : Nat} {s t : List Char} (cs : List Char) :
    Agree (byteCount cs + n) (cs ++ s) (cs ++ t) ↔ Agree n s t := by
  unfold Agree
  rw [byteCount_append, bytes_append, bytes_append, byteCount, List.take_length_add_append,
    List.take_length_add_append, List.append_cancel_left_eq, Nat.add_le_add_iff_left]

theorem Agree.behind {n : Nat} {s t : List Char} (h : Agree n s t) (cs : List Char) :
    Agree n (cs ++ s) (cs ++ t) :=
  ((agree_append_iff cs).2 h).mono (Nat.le_add_left ..)

theorem exists_append_of_agree {n : Nat} {cs s t : List Char}
    (h : Agree (byteCount cs + n) (cs ++ s) t) : ∃ t', t = cs ++ t' ∧ Agree n s t' := by
  induction cs generalizing t with
  | nil => exact ⟨t, rfl, by simpa [byteCount, bytes] using h⟩
  | cons c cs ih =>
    have hpos := Nat.lt_of_lt_of_le (byteCount_cons_pos c cs)
      (Nat.le_trans (Nat.le_add_right _ n) h.le_byteCount)
    obtain ⟨d, t, rfl⟩ : ∃ d t', t = d :: t' := by
      cases t with
      | nil => exact absurd hpos (Nat.lt_irrefl 0)
      | cons d t => exact ⟨d, t, rfl⟩
    obtain rfl : c = d := by
      refine eq_of_bytes_prefix (t := t) ?_
      have hstart : String.utf8EncodeChar c <+: bytes (c :: cs ++ s) := by
        rw [bytes, List.cons_append, List.flatMap_cons]
        exact List.prefix_append ..
      have htake := List.prefix_take_iff.2
        ⟨hstart, (by rw [String.length_utf8EncodeChar, byteCount_cons]; omega :
          (String.utf8EncodeChar c).length ≤ byteCount (c :: cs) + n)⟩
      rw [h.2] at htake
      exact (List.prefix_take_iff.1 htake).1
    have hrest : Agree (byteCount cs + n) (cs ++ s) t := by
      refine (agree_append_iff [c]).1 ?_
      have hcount : byteCount [c] + (byteCount cs + n) = byteCount (c :: cs) + n := by
        rw [byteCount_cons, byteCount_cons, ← Nat.add_assoc]
        rfl
      rwa [hcount]
    obtain ⟨t', rfl, ht'⟩ := ih hrest
    exact ⟨t', rfl, ht'⟩

/-! ## First characters -/

/-- The same character, or two that are not among the seven-bit ones. -/
def Alike (c d : Char) : Prop := c = d ∨ 0x80 ≤ c.toNat ∧ 0x80 ≤ d.toNat

/-- Texts with the same first byte start with characters that are alike. -/
theorem exists_alike {c : Char} {s t : List Char} (h : Agree 1 (c :: s) t) :
    ∃ d t', t = d :: t' ∧ Alike c d := by
  cases t with
  | nil => exact absurd h.le_byteCount (by decide)
  | cons d t =>
    refine ⟨d, t, rfl, ?_⟩
    obtain ⟨b, more, hb, hc⟩ := first_byte c
    obtain ⟨b', more', hb', hd⟩ := first_byte d
    have hbytes := h.2
    simp only [bytes, List.flatMap_cons, hb, hb', List.cons_append, List.take_succ_cons,
      List.take_zero, List.cons.injEq, and_true] at hbytes
    subst hbytes
    rcases hc with ⟨hc, hlt⟩ | ⟨hc, hge⟩
    · rcases hd with ⟨hd, -⟩ | ⟨hd, -⟩
      · exact .inl (Char.toNat_inj.1 (hc.symm.trans hd))
      · omega
    · rcases hd with ⟨hd, hlt⟩ | ⟨-, hge'⟩
      · omega
      · exact .inr ⟨hge, hge'⟩

namespace Alike

variable {c d : Char}

theorem eq_iff (h : Alike c d) {a : Char} (ha : a.toNat < 0x80) : d = a ↔ c = a := by
  rcases h with rfl | ⟨hc, hd⟩
  · rfl
  · constructor
    · rintro rfl
      omega
    · rintro rfl
      omega

theorem ne (h : Alike c d) {a : Char} (hc : c ≠ a) (ha : a.toNat < 0x80) : d ≠ a :=
  fun hd => hc ((h.eq_iff ha).1 hd)

theorem eq (h : Alike c d) (hc : c.toNat < 0x80) : d = c := (h.eq_iff hc).2 rfl

theorem lt_iff (h : Alike c d) {n : Nat} (hn : n ≤ 0x80) : d.toNat < n ↔ c.toNat < n := by
  rcases h with rfl | ⟨hc, hd⟩
  · rfl
  · omega

theorem isDigit_eq (h : Alike c d) : d.isDigit = c.isDigit := by
  rw [Bool.eq_iff_iff, isDigit_iff, isDigit_iff]
  rcases h with rfl | ⟨hc, hd⟩
  · rfl
  · omega

theorem isBlank_eq (h : Alike c d) : isBlank d = isBlank c := by
  rw [Bool.eq_iff_iff]
  simp only [isBlank, Bool.or_eq_true, beq_iff_eq, h.eq_iff (a := ' ') (by decide),
    h.eq_iff (a := '\t') (by decide), h.eq_iff (a := '\n') (by decide),
    h.eq_iff (a := '\r') (by decide)]

end Alike

end Json

end ScriptLiteral
