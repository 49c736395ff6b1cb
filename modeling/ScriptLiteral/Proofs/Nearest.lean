/-
  Script literals — the double nearest to a number.

  Rounding to nearest takes the double that no other is nearer to than, and of two
  equally near ones the even one.  Here that is said of the distances alone, without
  the algorithm, and counted from zero: the sign of a number is kept.

  * `numberAt r` is the number at rank `r`, as `numberAt_encoded` tells by exponent
    and fraction;
  * `IsNearest q r` says that `r` is the rank that `q` is rounded to; there is at most
    one (`IsNearest.unique`);
  * `Rounds r q` says the same by the midpoints to the neighbours of `r`, and
    `isNearest_iff` that it is the same;
  * `isNearest_nearest`: rounding a quotient finds its nearest rank.
-/
import ScriptLiteral.Proofs.Rounding
import ScriptLiteral.Proofs.ReducedNumber

namespace ScriptLiteral

/-! ## Distances -/

section
variable {q a b : ℚ}

/-- Which of two numbers is nearer is told by their midpoint. -/
theorem abs_sub_le_left_iff (h : a < b) : |q - a| ≤ |q - b| ↔ 2 * q ≤ a + b := by
  constructor
  · intro hle
    by_contra hlt
    have ha : |q - a| = q - a := abs_of_nonneg (by linarith)
    rcases abs_cases (q - b) with ⟨hb, -⟩ | ⟨hb, -⟩ <;> linarith
  · intro hle
    have hb : |q - b| = b - q := by rw [abs_sub_comm]; exact abs_of_nonneg (by linarith)
    rcases abs_cases (q - a) with ⟨ha, -⟩ | ⟨ha, -⟩ <;> linarith

theorem abs_sub_le_right_iff (h : a < b) : |q - b| ≤ |q - a| ↔ a + b ≤ 2 * q := by
  have hmirror := abs_sub_le_left_iff (q := -q) (neg_lt_neg h)
  rw [neg_sub_neg, neg_sub_neg, abs_sub_comm b, abs_sub_comm a] at hmirror
  rw [hmirror]
  constructor <;> intro hle <;> linarith

end

/-- Which of the two neighbours is taken: on the midpoint, the even one. -/
theorem Rank.nearest_cases (w num den : Nat) :
    let r := floor w (num / den)
    let midpoint := (quanta w r + quanta w (r + 1)) * den
    (2 * num < midpoint ∧ nearest w num den = r) ∨
      (midpoint < 2 * num ∧ nearest w num den = r + 1) ∨
      (2 * num = midpoint ∧ r % 2 = 0 ∧ nearest w num den = r) ∨
      (2 * num = midpoint ∧ r % 2 ≠ 0 ∧ nearest w num den = r + 1) := by
  unfold nearest
  dsimp only
  split
  · next h => exact .inl ⟨h, rfl⟩
  · split
    · next h => exact .inr (.inl ⟨h, rfl⟩)
    · next hle hge =>
      have heq := Nat.le_antisymm (Nat.le_of_not_lt hge) (Nat.le_of_not_lt hle)
      split
      · next heven => exact .inr (.inr (.inl ⟨heq, heven, rfl⟩))
      · next hodd => exact .inr (.inr (.inr ⟨heq, hodd, rfl⟩))

namespace Double

/-! ## Numbers by rank -/

/-- The number at rank `r`.  At the rank of infinity it is the power of two that
    would follow the greatest finite number. -/
def numberAt (r : Nat) : ℚ := Rank.quanta 52 r / unity

theorem cast_unity_pos : (0 : ℚ) < unity := by exact_mod_cast unity_pos

@[simp] theorem numberAt_zero : numberAt 0 = 0 := by
  rw [numberAt, Rank.quanta_zero, Nat.cast_zero, zero_div]

theorem numberAt_lt_numberAt {r s : Nat} (h : r < s) : numberAt r < numberAt s := by
  have hquanta : (Rank.quanta 52 r : ℚ) < Rank.quanta 52 s := by
    exact_mod_cast Rank.quanta_lt_quanta h
  exact div_lt_div_of_pos_right hquanta cast_unity_pos

theorem numberAt_le_numberAt {r s : Nat} (h : r ≤ s) : numberAt r ≤ numberAt s := by
  rcases Nat.lt_or_eq_of_le h with h | rfl
  · exact (numberAt_lt_numberAt h).le
  · exact le_rfl

theorem numberAt_pos {r : Nat} (h : 0 < r) : 0 < numberAt r := by
  rw [← numberAt_zero]
  exact numberAt_lt_numberAt h

theorem numberAt_nonneg (r : Nat) : 0 ≤ numberAt r := by
  rw [← numberAt_zero]
  exact numberAt_le_numberAt (Nat.zero_le r)

/-- The number that an exponent `e` and a fraction `f` encode: without the hidden bit
    if the exponent is zero. -/
theorem numberAt_encoded (e : Nat) {f : Nat} (hf : f < 2 ^ 52) :
    numberAt (e * 2 ^ 52 + f) =
      if e = 0 then (f : ℚ) * 2 ^ (-1074 : ℤ) else (2 ^ 52 + f) * 2 ^ ((e : ℤ) - 1075) := by
  have hleast : (leastExponent : ℤ) = 1074 := by unfold leastExponent; rfl
  have hunity : (unity : ℚ) = 2 ^ (leastExponent : ℤ) := by
    rw [zpow_natCast]
    exact Nat.cast_pow 2 leastExponent
  have hw : twoTo 52 = 2 ^ 52 := rfl
  unfold numberAt
  rw [hunity, hleast]
  by_cases h : e = 0
  · have hsmall : f < twoTo (52 + 1) := by rw [twoTo_succ, hw]; omega
    rw [if_pos h, h, Nat.zero_mul, Nat.zero_add, Rank.quanta_of_lt hsmall, zpow_neg, div_eq_mul_inv]
  · have hle : twoTo 52 ≤ e * 2 ^ 52 + f := by rw [hw]; omega
    have hdiv : (e * 2 ^ 52 + f) / twoTo 52 = e := by rw [hw]; omega
    have hmod : (e * 2 ^ 52 + f) % twoTo 52 = f := by rw [hw]; omega
    have hpow : (twoTo (e - 1) : ℚ) = 2 ^ ((e : ℤ) - 1) := by
      rw [← Nat.cast_pred (Nat.pos_of_ne_zero h), zpow_natCast]
      exact Nat.cast_pow 2 (e - 1)
    rw [if_neg h, Rank.quanta_of_le hle, hdiv, hmod, Nat.cast_mul, hpow, mul_div_assoc,
      ← zpow_sub₀ (by norm_num), Nat.cast_add, hw]
    push_cast
    congr 2
    omega

/-! ## The nearest rank -/

/-- No rank up to infinity is nearer to `q` than `r`, and if another is equally near,
    then `r` is even. -/
structure IsNearest (q : ℚ) (r : Nat) : Prop where
  le_infinityRank : r ≤ infinityRank
  closest : ∀ s ≤ infinityRank, |q - numberAt r| ≤ |q - numberAt s|
  even_of_tie : ∀ s ≤ infinityRank, s ≠ r → |q - numberAt s| = |q - numberAt r| → r % 2 = 0

theorem IsNearest.not_lt {q : ℚ} {r s : Nat} (hr : IsNearest q r) (hs : IsNearest q s) :
    ¬ r < s := by
  intro hlt
  have heq : |q - numberAt s| = |q - numberAt r| :=
    le_antisymm (hs.closest r hr.le_infinityRank) (hr.closest s hs.le_infinityRank)
  -- equally near ranks are both even, so the one between them would be nearer
  have hreven := hr.even_of_tie s hs.le_infinityRank (by omega) heq
  have hseven := hs.even_of_tie r hr.le_infinityRank (by omega) heq.symm
  have hnext : r + 1 < s := by omega
  have hlow := numberAt_lt_numberAt (Nat.lt_succ_self r)
  have hhigh := numberAt_lt_numberAt hnext
  have hmidpoint := (abs_sub_le_right_iff (numberAt_lt_numberAt hlt)).1 heq.le
  have hclosest := hr.closest (r + 1) (Nat.le_of_lt (Nat.lt_of_lt_of_le hnext hs.le_infinityRank))
  have := (abs_sub_le_left_iff hlow).1 hclosest
  linarith

/-- **A number is rounded to one rank only.** -/
theorem IsNearest.unique {q : ℚ} {r s : Nat} (hr : IsNearest q r) (hs : IsNearest q s) : r = s :=
  Nat.le_antisymm (Nat.le_of_not_lt (hs.not_lt hr)) (Nat.le_of_not_lt (hr.not_lt hs))

/-! ## Midpoints -/

/-- The number lies between the midpoints to the neighbours of `r`, or on one of them
    if `r` is even.  Nothing lies below zero. -/
def Rounds (r : Nat) (q : ℚ) : Prop :=
  let low := numberAt (r - 1) + numberAt r
  let high := numberAt r + numberAt (r + 1)
  if r % 2 = 0 then low ≤ 2 * q ∧ 2 * q ≤ high else low < 2 * q ∧ 2 * q < high

theorem Rounds.le {r : Nat} {q : ℚ} (h : Rounds r q) :
    numberAt (r - 1) + numberAt r ≤ 2 * q ∧ 2 * q ≤ numberAt r + numberAt (r + 1) := by
  unfold Rounds at h
  dsimp only at h
  split at h
  · exact h
  · exact ⟨h.1.le, h.2.le⟩

/-- A midpoint belongs to an even rank only. -/
theorem rounds_iff {r : Nat} {q : ℚ} : Rounds r q ↔
    (numberAt (r - 1) + numberAt r ≤ 2 * q ∧ 2 * q ≤ numberAt r + numberAt (r + 1)) ∧
      (numberAt (r - 1) + numberAt r = 2 * q ∨ 2 * q = numberAt r + numberAt (r + 1) →
        r % 2 = 0) := by
  constructor
  · intro h
    refine ⟨h.le, fun htie => ?_⟩
    by_contra hodd
    rw [Rounds, if_neg hodd] at h
    rcases htie with htie | htie
    · exact h.1.ne htie
    · exact h.2.ne htie
  · rintro ⟨⟨hlow, hhigh⟩, htie⟩
    unfold Rounds
    split
    · exact ⟨hlow, hhigh⟩
    · next hodd =>
      exact ⟨hlow.lt_of_ne fun e => hodd (htie (.inl e)),
        hhigh.lt_of_ne fun e => hodd (htie (.inr e))⟩

theorem Rounds.convex {r : Nat} {a b q : ℚ} (ha : Rounds r a) (hb : Rounds r b) (hlow : a ≤ q)
    (hhigh : q ≤ b) : Rounds r q := by
  unfold Rounds at ha hb ⊢
  dsimp only at ha hb ⊢
  split
  · next heven =>
    rw [if_pos heven] at ha hb
    exact ⟨by linarith, by linarith⟩
  · next hodd =>
    rw [if_neg hodd] at ha hb
    exact ⟨by linarith, by linarith⟩

theorem rounds_numberAt (r : Nat) : Rounds r (numberAt r) := by
  have hlow := numberAt_le_numberAt (Nat.sub_le r 1)
  have hhigh := numberAt_lt_numberAt (Nat.lt_succ_self r)
  refine rounds_iff.2 ⟨⟨by linarith, by linarith⟩, fun htie => ?_⟩
  rcases htie with htie | htie
  · -- only at zero is there no number below
    have hr : r = 0 := by
      by_contra hne
      have := numberAt_lt_numberAt (by omega : r - 1 < r)
      linarith
    rw [hr]
  · linarith

/-- **The nearest rank is told by the midpoints to its neighbours.** -/
theorem isNearest_iff {q : ℚ} {r : Nat} (hq : 0 ≤ q) (hr : r < infinityRank) :
    IsNearest q r ↔ Rounds r q := by
  have hnext := numberAt_lt_numberAt (Nat.lt_succ_self r)
  rw [rounds_iff]
  constructor
  · intro h
    have hhigh := (abs_sub_le_left_iff hnext).1 (h.closest (r + 1) hr)
    rcases Nat.eq_zero_or_pos r with rfl | hpos
    · refine ⟨⟨?_, hhigh⟩, fun _ => rfl⟩
      simpa using hq
    · have hprev : numberAt (r - 1) < numberAt r := numberAt_lt_numberAt (by omega)
      have hle : r - 1 ≤ infinityRank := by omega
      have hlow := (abs_sub_le_right_iff hprev).1 (h.closest (r - 1) hle)
      refine ⟨⟨hlow, hhigh⟩, fun htie => ?_⟩
      rcases htie with htie | htie
      · have hfar := (abs_sub_le_left_iff hprev).2 htie.ge
        exact h.even_of_tie (r - 1) hle (by omega) (le_antisymm hfar (h.closest _ hle))
      · have hfar := (abs_sub_le_right_iff hnext).2 htie.ge
        exact h.even_of_tie (r + 1) hr (by omega) (le_antisymm hfar (h.closest _ hr))
  · rintro ⟨⟨hlow, hhigh⟩, htie⟩
    refine ⟨hr.le, fun s _ => ?_, fun s _ hne heq => htie ?_⟩
    · rcases Nat.lt_trichotomy s r with hlt | rfl | hlt
      · have hs := numberAt_le_numberAt (by omega : s ≤ r - 1)
        exact (abs_sub_le_right_iff (numberAt_lt_numberAt hlt)).2 (by linarith)
      · exact le_rfl
      · have hs := numberAt_le_numberAt (by omega : r + 1 ≤ s)
        exact (abs_sub_le_left_iff (numberAt_lt_numberAt hlt)).2 (by linarith)
    · rcases Nat.lt_or_gt_of_ne hne with hlt | hlt
      · have hs := numberAt_le_numberAt (by omega : s ≤ r - 1)
        have := (abs_sub_le_left_iff (numberAt_lt_numberAt hlt)).1 heq.le
        exact .inl (by linarith)
      · have hs := numberAt_le_numberAt (by omega : r + 1 ≤ s)
        have := (abs_sub_le_right_iff (numberAt_lt_numberAt hlt)).1 heq.le
        exact .inr (by linarith)

/-! ## Rounding a quotient -/

theorem numberAt_floor_le (num : Nat) {den : Nat} (hden : 0 < den) :
    numberAt (Rank.floor 52 (num * unity / den)) ≤ (num / den : ℚ) ∧
      (num / den : ℚ) < numberAt (Rank.floor 52 (num * unity / den) + 1) := by
  have hlow := Rank.quanta_floor_le 52 (num * unity / den)
  have hhigh := Rank.lt_quanta_floor_succ 52 (num * unity / den)
  rw [Nat.le_div_iff_mul_le hden] at hlow
  rw [Nat.div_lt_iff_lt_mul hden] at hhigh
  have hden' : (0 : ℚ) < den := by exact_mod_cast hden
  unfold numberAt
  constructor
  · rw [div_le_div_iff₀ cast_unity_pos hden']
    exact_mod_cast hlow
  · rw [div_lt_div_iff₀ hden' cast_unity_pos]
    exact_mod_cast hhigh

theorem two_mul_div_cmp (num r : Nat) {den : Nat} (hden : 0 < den) :
    (2 * (num * unity) < (Rank.quanta 52 r + Rank.quanta 52 (r + 1)) * den →
      2 * (num / den : ℚ) < numberAt r + numberAt (r + 1)) ∧
    ((Rank.quanta 52 r + Rank.quanta 52 (r + 1)) * den < 2 * (num * unity) →
      numberAt r + numberAt (r + 1) < 2 * (num / den : ℚ)) ∧
    (2 * (num * unity) = (Rank.quanta 52 r + Rank.quanta 52 (r + 1)) * den →
      2 * (num / den : ℚ) = numberAt r + numberAt (r + 1)) := by
  have hden' : (0 : ℚ) < den := by exact_mod_cast hden
  unfold numberAt
  rw [← add_div, ← mul_div_assoc, div_lt_div_iff₀ hden' cast_unity_pos,
    div_lt_div_iff₀ cast_unity_pos hden', div_eq_div_iff hden'.ne' cast_unity_pos.ne', mul_assoc]
  refine ⟨fun h => ?_, fun h => ?_, fun h => ?_⟩
  · exact_mod_cast h
  · exact_mod_cast h
  · exact_mod_cast h

theorem rounds_nearest (num : Nat) {den : Nat} (hden : 0 < den) :
    Rounds (Rank.nearest 52 (num * unity) den) (num / den) := by
  obtain ⟨hlow, hhigh⟩ := numberAt_floor_le num hden
  have hcases := Rank.nearest_cases 52 (num * unity) den
  obtain ⟨hbelow, habove, hmiddle⟩ :=
    two_mul_div_cmp num (Rank.floor 52 (num * unity / den)) hden
  generalize Rank.floor 52 (num * unity / den) = r at *
  generalize (num / den : ℚ) = q at *
  rw [rounds_iff]
  have hprev := numberAt_le_numberAt (Nat.sub_le r 1)
  have hnext := numberAt_lt_numberAt (Nat.lt_succ_self (r + 1))
  rcases hcases with ⟨hlt, hr⟩ | ⟨hlt, hr⟩ | ⟨heq, heven, hr⟩ | ⟨heq, hodd, hr⟩
  · -- below the midpoint: the rank below, of which only zero has its midpoint at itself
    have hq := hbelow hlt
    rw [hr]
    refine ⟨⟨by linarith, hq.le⟩, fun htie => ?_⟩
    by_contra hodd
    have := numberAt_lt_numberAt (by omega : r - 1 < r)
    rcases htie with htie | htie <;> linarith
  · have hq := habove hlt
    rw [hr, Nat.add_sub_cancel]
    refine ⟨⟨hq.le, by linarith⟩, fun htie => ?_⟩
    rcases htie with htie | htie <;> linarith
  · have hq := hmiddle heq
    rw [hr]
    exact ⟨⟨by linarith, hq.le⟩, fun _ => heven⟩
  · have hq := hmiddle heq
    rw [hr, Nat.add_sub_cancel]
    exact ⟨⟨hq.ge, by linarith⟩, fun _ => by omega⟩

theorem even_infinityRank : infinityRank % 2 = 0 := by decide

/-- What a format without infinity would round to a rank above it is rounded to
    infinity. -/
theorem Rounds.isNearest_infinityRank {q : ℚ} {r : Nat} (h : Rounds r q)
    (hr : infinityRank ≤ r) : IsNearest q infinityRank := by
  have hlow := h.le.1
  have hrank := numberAt_le_numberAt hr
  refine ⟨Nat.le_refl _, fun s hs => ?_, fun _ _ _ _ => even_infinityRank⟩
  rcases Nat.lt_or_eq_of_le hs with hlt | heq
  · have hprev : numberAt s ≤ numberAt (r - 1) := numberAt_le_numberAt (by omega)
    exact (abs_sub_le_right_iff (numberAt_lt_numberAt hlt)).2 (by linarith)
  · rw [heq]

/-- **Rounding a quotient finds its nearest rank.** -/
theorem isNearest_nearest {num den : Nat} (negative : Bool) (hden : 0 < den) :
    IsNearest (num / den) (nearest negative num den).rank := by
  have hrounds := rounds_nearest num hden
  have hrank : (nearest negative num den).rank =
      min infinityRank (Rank.nearest 52 (num * unity) den) := rfl
  have hnonneg : (0 : ℚ) ≤ num / den := by positivity
  rw [hrank]
  generalize Rank.nearest 52 (num * unity) den = r at hrounds ⊢
  by_cases h : r < infinityRank
  · rw [Nat.min_eq_right h.le]
    exact (isNearest_iff hnonneg h).2 hrounds
  · rw [Nat.min_eq_left (Nat.le_of_not_lt h)]
    exact hrounds.isNearest_infinityRank (Nat.le_of_not_lt h)

end Double

end ScriptLiteral
