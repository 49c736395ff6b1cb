/-
  Script literals — ranks of binary floating-point numbers.

  The non-negative numbers of a binary format with `w` fraction bits, in
  increasing order, have the ranks `0, 1, 2, …`; the rank is also the number's
  encoding without the sign.  All of them are multiples of the least positive
  one, the quantum, and `quanta w r` is the multiple at rank `r`.

  * `quanta_succ` is the step from a rank to the next, so `quanta w` is strictly
    increasing (`quanta_lt_quanta`);
  * `floor w n` is the greatest rank whose number is at most `n` quanta
    (`quanta_floor_le`, `lt_quanta_floor_succ`);
  * `nearest w num den` is the rank whose number is nearest to `num / den`
    quanta, the even one of two equally near.

  Nothing is bounded here: a format cuts the ranks off at its infinity.
-/
import ScriptLiteral.Digits

namespace ScriptLiteral

namespace Rank

/-! ## Numbers by rank -/

/-- The number at rank `r`, counted in quanta.  The first `2 ^ (w + 1)` ranks
    step by one quantum; from there on each block of `2 ^ w` ranks steps by
    twice the step of the block before. -/
def quanta (w r : Nat) : Nat :=
  if r < twoTo (w + 1) then r else (twoTo w + r % twoTo w) * twoTo (r / twoTo w - 1)

theorem quanta_of_lt {w r : Nat} (h : r < twoTo (w + 1)) : quanta w r = r := if_pos h

@[simp] theorem quanta_zero (w : Nat) : quanta w 0 = 0 := quanta_of_lt (twoTo_pos _)

/-- From the second block on, a number is its block's power of two times a
    significand. -/
theorem quanta_of_le {w r : Nat} (h : twoTo w ≤ r) :
    quanta w r = (twoTo w + r % twoTo w) * twoTo (r / twoTo w - 1) := by
  unfold quanta
  split
  · next hr =>
    have hd : r / twoTo w = 1 :=
      Nat.div_eq_of_lt_le (by omega) (by rw [twoTo_succ] at hr; omega)
    have hm := Nat.div_add_mod r (twoTo w)
    rw [hd] at hm
    rw [hd, Nat.sub_self, twoTo_zero]
    omega
  · rfl

theorem quanta_succ (w r : Nat) : quanta w (r + 1) = quanta w r + twoTo (r / twoTo w - 1) := by
  have hw : 0 < twoTo w := twoTo_pos w
  by_cases h : twoTo w ≤ r
  · rw [quanta_of_le h, quanta_of_le (by omega : twoTo w ≤ r + 1)]
    have hm := Nat.div_add_mod r (twoTo w)
    have hlt := Nat.mod_lt r hw
    have he : 1 ≤ r / twoTo w := (Nat.one_le_div_iff hw).2 h
    by_cases hc : r % twoTo w + 1 = twoTo w
    · have hs : r + 1 = (r / twoTo w + 1) * twoTo w := by
        rw [Nat.add_mul, Nat.mul_comm, Nat.one_mul]; omega
      have hp : twoTo (r / twoTo w) = twoTo (r / twoTo w - 1) * 2 := by
        rw [← twoTo_succ]; congr 1; omega
      rw [hs, Nat.mul_mod_left, Nat.mul_div_cancel _ hw, Nat.add_sub_cancel, hp, Nat.add_zero,
        Nat.mul_comm _ 2, ← Nat.mul_assoc, ← Nat.succ_mul]
      congr 1
      omega
    · have hs : r + 1 = (r % twoTo w + 1) + twoTo w * (r / twoTo w) := by omega
      have hlt' : r % twoTo w + 1 < twoTo w := by omega
      have hd : (r + 1) / twoTo w = r / twoTo w := by
        rw [hs, Nat.add_mul_div_left _ _ hw, Nat.div_eq_of_lt hlt', Nat.zero_add]
      have hm' : (r + 1) % twoTo w = r % twoTo w + 1 := by
        rw [hs, Nat.add_mul_mod_self_left, Nat.mod_eq_of_lt hlt']
      rw [hd, hm', ← Nat.add_assoc, Nat.succ_mul]
  · have hd : r / twoTo w = 0 := Nat.div_eq_of_lt (by omega)
    have h₁ : r + 1 < twoTo (w + 1) := by rw [twoTo_succ]; omega
    have h₂ : r < twoTo (w + 1) := by omega
    simp only [quanta_of_lt h₁, quanta_of_lt h₂, hd, Nat.zero_sub, twoTo_zero]

theorem quanta_lt_succ (w r : Nat) : quanta w r < quanta w (r + 1) := by
  rw [quanta_succ]
  exact Nat.lt_add_of_pos_right (twoTo_pos _)

/-- **A higher rank is a greater number.** -/
theorem quanta_lt_quanta {w r s : Nat} (h : r < s) : quanta w r < quanta w s := by
  induction h with
  | refl => exact quanta_lt_succ w r
  | step _ ih => exact Nat.lt_trans ih (quanta_lt_succ w _)

theorem quanta_le_quanta {w r s : Nat} (h : r ≤ s) : quanta w r ≤ quanta w s := by
  rcases Nat.lt_or_eq_of_le h with h | rfl
  · exact Nat.le_of_lt (quanta_lt_quanta h)
  · exact Nat.le_refl _

/-! ## Rounding down -/

/-- The greatest rank whose number is at most `n` quanta. -/
def floor (w n : Nat) : Nat :=
  if n < twoTo (w + 1) then n else
    let shift := n.log2 - w
    shift * twoTo w + n / twoTo shift

theorem floor_of_lt {w n : Nat} (h : n < twoTo (w + 1)) : floor w n = n := if_pos h

/-- Above the first ranks, rounding down drops the bits that do not fit; the rank
    lies in the block that the dropped bits tell. -/
theorem quanta_floor_of_le {w n : Nat} (h : twoTo (w + 1) ≤ n) :
    quanta w (floor w n) = n / twoTo (n.log2 - w) * twoTo (n.log2 - w) ∧
      floor w n / twoTo w - 1 = n.log2 - w := by
  have hw : 0 < twoTo w := twoTo_pos w
  have hn : n ≠ 0 := by have := twoTo_pos (w + 1); omega
  have hlog : w + 1 ≤ n.log2 := (Nat.le_log2 hn).2 h
  have hlow : twoTo n.log2 ≤ n := Nat.log2_self_le hn
  have hhigh : n < twoTo (n.log2 + 1) := Nat.lt_log2_self
  obtain ⟨s, hs⟩ : ∃ s, n.log2 = w + s := ⟨n.log2 - w, by omega⟩
  have hq₁ : twoTo w ≤ n / twoTo s := by
    rw [Nat.le_div_iff_mul_le (twoTo_pos s), ← twoTo_add, ← hs]
    exact hlow
  have hq₂ : n / twoTo s < twoTo w + twoTo w := by
    rw [Nat.div_lt_iff_lt_mul (twoTo_pos s), ← Nat.mul_two, Nat.mul_right_comm, ← twoTo_add,
      ← hs, ← twoTo_succ]
    exact hhigh
  have hf : floor w n = s * twoTo w + n / twoTo s := by
    unfold floor
    rw [if_neg (by omega), hs]
    simp only [Nat.add_sub_cancel_left]
  have hd : floor w n / twoTo w = s + 1 := by
    rw [hf]
    exact Nat.div_eq_of_lt_le (by rw [Nat.add_mul]; omega) (by rw [Nat.add_mul, Nat.add_mul]; omega)
  have hm : floor w n % twoTo w = n / twoTo s - twoTo w := by
    have h' := Nat.div_add_mod (floor w n) (twoTo w)
    rw [hd, Nat.mul_comm, Nat.add_mul, hf] at h'
    rw [hf]
    omega
  have hle : twoTo w ≤ floor w n := by rw [hf]; exact Nat.le_trans hq₁ (Nat.le_add_left ..)
  have hs' : n.log2 - w = s := by omega
  refine ⟨?_, by omega⟩
  rw [quanta_of_le hle, hd, hm, hs']
  congr 1
  omega

/-- **Rounding down stays below.** -/
theorem quanta_floor_le (w n : Nat) : quanta w (floor w n) ≤ n := by
  by_cases h : n < twoTo (w + 1)
  · simp only [floor_of_lt h, quanta_of_lt h, Nat.le_refl]
  · rw [(quanta_floor_of_le (by omega)).1]
    exact Nat.div_mul_le_self ..

/-- **Rounding down reaches the greatest rank below.** -/
theorem lt_quanta_floor_succ (w n : Nat) : n < quanta w (floor w n + 1) := by
  by_cases h : n < twoTo (w + 1)
  · have := quanta_lt_succ w n
    rw [quanta_of_lt h] at this
    rwa [floor_of_lt h]
  · have ⟨h₁, h₂⟩ := quanta_floor_of_le (w := w) (n := n) (by omega)
    rw [quanta_succ, h₁, h₂, ← Nat.succ_mul]
    exact Nat.lt_mul_of_div_lt (Nat.lt_succ_self _) (twoTo_pos _)

/-! ## Rounding to nearest -/

/-- The rank whose number is nearest to `num / den` quanta; of two equally near
    ranks the even one. -/
def nearest (w num den : Nat) : Nat :=
  let r := floor w (num / den)
  let midpoint := (quanta w r + quanta w (r + 1)) * den
  if 2 * num < midpoint then r
  else if midpoint < 2 * num then r + 1
  else if r % 2 = 0 then r else r + 1

theorem nearest_eq_floor_or (w num den : Nat) :
    nearest w num den = floor w (num / den) ∨ nearest w num den = floor w (num / den) + 1 := by
  unfold nearest
  dsimp only
  split
  · exact .inl rfl
  · split
    · exact .inr rfl
    · split
      · exact .inl rfl
      · exact .inr rfl

end Rank

end ScriptLiteral
