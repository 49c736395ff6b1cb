/-
  Script literals — the shortest decimal of a double.

  The search for the shortest decimal goes through the grids `10 ^ t` from the
  coarsest that can hold a digit of the number down.  The numbers that are rounded to
  a rank are an interval around the number itself, so if any point of a grid is in
  it, one of the two neighbours is; and on a grid with seventeen digits the nearest
  point is in it, since its distance is at most half a step of the grid, and that is
  less than half the gap to the next rank.

  * `magnitude_spec`: the search starts at the first digit;
  * `not_rounds_of_neighbour?` is what the search knows of a grid it leaves, and
    `shortestFrom_spec` what it knows at its end;
  * `rounds_shortest`: the decimal that is found is rounded to the double;
  * `exists_digits_shortest`: it can be written with as few digits as any that is.
-/
import ScriptLiteral.Double.Shortest
import ScriptLiteral.Proofs.Nearest

namespace ScriptLiteral

/-! ## Powers of ten -/

theorem zpow_ten_mul (t : ℤ) : (10 : ℚ) ^ t * tenTo (-t).toNat = tenTo t.toNat := by
  rw [mul_comm, tenTo_mul_zpow (t := t.toNat) (by omega), zpow_natCast, cast_tenTo]

theorem length_toDigits {n : Nat} (h : 0 < n) : ∃ l, (Nat.toDigits 10 n).length = l + 1 ∧
    tenTo l ≤ n ∧ n < tenTo (l + 1) := by
  obtain ⟨l, hl⟩ : ∃ l, (Nat.toDigits 10 n).length = l + 1 :=
    ⟨_, (Nat.succ_pred_eq_of_pos Nat.length_toDigits_pos).symm⟩
  refine ⟨l, hl, ?_, (Nat.length_toDigits_le_iff (by decide) l.succ_pos).1 hl.le⟩
  rcases Nat.eq_zero_or_pos l with rfl | hpos
  · exact h
  · by_contra hlt
    have := (Nat.length_toDigits_le_iff (b := 10) (by decide) hpos).2 (Nat.lt_of_not_le hlt)
    omega

namespace Double

/-- The first digit of `n / m` is the one that the magnitude tells. -/
theorem magnitude_spec {n m : Nat} (hn : 0 < n) (hm : 0 < m) :
    (10 : ℚ) ^ (magnitude n m - 1) ≤ n / m ∧ (n / m : ℚ) < 10 ^ magnitude n m := by
  have hm' : (0 : ℚ) < m := by exact_mod_cast hm
  unfold magnitude
  by_cases h : m ≤ n
  · obtain ⟨l, hl, hlow, hhigh⟩ := length_toDigits (Nat.div_pos h hm)
    rw [Nat.le_div_iff_mul_le hm] at hlow
    rw [Nat.div_lt_iff_lt_mul hm] at hhigh
    rw [if_pos h, hl, Nat.cast_succ, add_sub_cancel_right, ← Nat.cast_succ, zpow_natCast,
      zpow_natCast, ← cast_tenTo, ← cast_tenTo, le_div_iff₀ hm', div_lt_iff₀ hm']
    exact ⟨by exact_mod_cast hlow, by exact_mod_cast hhigh⟩
  · -- below one it is the reciprocal that has so many digits
    have hpos : 0 < (m - 1) / n := Nat.div_pos (by omega) hn
    obtain ⟨l, hl, hlow, hhigh⟩ := length_toDigits hpos
    rw [Nat.le_div_iff_mul_le hn] at hlow
    rw [Nat.div_lt_iff_lt_mul hn] at hhigh
    have hfirst : (1 : ℤ) - (l + 1 : Nat) - 1 = -(l + 1 : Nat) := by omega
    have hnext : (1 : ℤ) - (l + 1 : Nat) = -(l : Nat) := by omega
    rw [if_neg h, hl, hfirst, hnext, zpow_neg, zpow_neg, zpow_natCast, zpow_natCast, ← cast_tenTo,
      ← cast_tenTo, ← one_div, ← one_div, div_le_div_iff₀ (by exact_mod_cast tenTo_pos _) hm',
      div_lt_div_iff₀ hm' (by exact_mod_cast tenTo_pos _), one_mul]
    constructor
    · have : m ≤ n * tenTo (l + 1) := by rw [Nat.mul_comm]; omega
      exact_mod_cast this
    · have : n * tenTo l < m := by rw [Nat.mul_comm]; omega
      exact_mod_cast this

/-! ## One grid -/

theorem readsBack_iff {r d : Nat} {t : ℤ} : ReadsBack r d t ↔ Rounds r (d * 10 ^ t) := by
  have hden : (0 : ℚ) < unity * tenTo (-t).toNat :=
    mul_pos cast_unity_pos (by exact_mod_cast tenTo_pos _)
  have hten : (tenTo (-t).toNat : ℚ) ≠ 0 := by exact_mod_cast (tenTo_pos _).ne'
  have hpoint : 2 * (d * 10 ^ t : ℚ) =
      (d * tenTo t.toNat * (2 * unity) : Nat) / (unity * tenTo (-t).toNat) := by
    rw [eq_div_iff hden.ne', Nat.cast_mul, Nat.cast_mul, Nat.cast_mul, ← zpow_ten_mul t]
    push_cast
    ring
  have hmidpoint : ∀ s u, numberAt s + numberAt u =
      ((Rank.quanta 52 s + Rank.quanta 52 u) * tenTo (-t).toNat : Nat) /
        (unity * tenTo (-t).toNat) := by
    intro s u
    rw [numberAt, numberAt, ← add_div, Nat.cast_mul, Nat.cast_add, mul_div_mul_right _ _ hten]
  unfold ReadsBack Rounds
  simp only [hpoint, hmidpoint, div_le_div_iff_of_pos_right hden, div_lt_div_iff_of_pos_right hden,
    Nat.cast_le, Nat.cast_lt]

theorem onGrid_eq (r : Nat) (t : ℤ) :
    ((onGrid r t).1 / (onGrid r t).2 : ℚ) * 10 ^ t = numberAt r := by
  have hten : (tenTo (-t).toNat : ℚ) ≠ 0 := by exact_mod_cast (tenTo_pos _).ne'
  have hpow : (10 : ℚ) ^ t ≠ 0 := by positivity
  unfold onGrid numberAt
  rw [Nat.cast_mul, Nat.cast_mul, ← zpow_ten_mul t]
  field_simp

theorem onGrid_pos (r : Nat) (t : ℤ) : 0 < (onGrid r t).2 := Nat.mul_pos (tenTo_pos _) unity_pos

theorem below_spec (r : Nat) (t : ℤ) :
    (below r t : ℚ) * 10 ^ t ≤ numberAt r ∧ numberAt r < (below r t + 1 : Nat) * 10 ^ t := by
  have hden : (0 : ℚ) < (onGrid r t).2 := by exact_mod_cast onGrid_pos r t
  have hpow : (0 : ℚ) < 10 ^ t := by positivity
  rw [← onGrid_eq r t, mul_le_mul_iff_left₀ hpow, mul_lt_mul_iff_left₀ hpow, le_div_iff₀ hden,
    div_lt_iff₀ hden]
  unfold below
  constructor
  · exact_mod_cast Nat.div_mul_le_self ..
  · exact_mod_cast Nat.lt_mul_of_div_lt (Nat.lt_succ_self _) (onGrid_pos r t)

theorem below_lt_tenTo {r : Nat} {k : ℤ} (h : numberAt r < 10 ^ k) (n : Nat) :
    below r (k - n) < tenTo n := by
  have hpow : (0 : ℚ) < 10 ^ (k - n) := by positivity
  have hbelow : (below r (k - n) : ℚ) < tenTo n := by
    refine lt_of_mul_lt_mul_right ?_ hpow.le
    calc (below r (k - n) : ℚ) * 10 ^ (k - n)
        ≤ numberAt r := (below_spec r _).1
      _ < 10 ^ k := h
      _ = tenTo n * 10 ^ (k - n) := (tenTo_mul_zpow (by omega)).symm
  exact_mod_cast hbelow

theorem abs_nearestPoint_sub_le (r : Nat) (t : ℤ) :
    2 * |(nearestPoint r t : ℚ) * 10 ^ t - numberAt r| ≤ 10 ^ t := by
  have hpos := onGrid_pos r t
  have hgrid := onGrid_eq r t
  unfold nearestPoint
  generalize onGrid r t = g at hpos hgrid ⊢
  obtain ⟨num, den⟩ := g
  dsimp only at hpos hgrid ⊢
  have hden : (0 : ℚ) < den := by exact_mod_cast hpos
  have hpow : (0 : ℚ) < 10 ^ t := by positivity
  have hlt : num % den < den := Nat.mod_lt num hpos
  have hquotient : (num / den : ℚ) = (num / den : Nat) + (num % den : Nat) / den := by
    rw [div_eq_iff hden.ne', add_mul, div_mul_cancel₀ _ hden.ne']
    exact_mod_cast (Nat.div_add_mod' num den).symm
  rw [← hgrid, hquotient]
  generalize num / den = q
  generalize num % den = m at hlt ⊢
  rw [← sub_mul, abs_mul, abs_of_pos hpow, ← mul_assoc]
  refine mul_le_of_le_one_left hpow.le ?_
  by_cases h : 2 * m < den
  · have hm : 2 * (m / den : ℚ) ≤ 1 := by
      rw [← mul_div_assoc, div_le_one hden]
      exact_mod_cast h.le
    rw [if_pos h, sub_add_cancel_left, abs_neg, abs_of_nonneg (by positivity)]
    exact hm
  · have hm : 1 ≤ 2 * (m / den : ℚ) := by
      rw [← mul_div_assoc, one_le_div hden]
      exact_mod_cast Nat.le_of_not_lt h
    have hone : (m / den : ℚ) ≤ 1 := by
      rw [div_le_one hden]
      exact_mod_cast hlt.le
    rw [if_neg h, Nat.cast_add, Nat.cast_one, add_sub_add_left_eq_sub,
      abs_of_nonneg (by linarith)]
    linarith

/-- **On a grid that is left, no point is rounded to the rank.** -/
theorem not_rounds_of_neighbour? {r : Nat} {t : ℤ} (h : neighbour? r t = none) (c : Nat) :
    ¬ Rounds r (c * 10 ^ t) := by
  have hnone : ¬ ReadsBack r (below r t) t ∧ ¬ ReadsBack r (below r t + 1) t := by
    unfold neighbour? at h
    dsimp only at h
    constructor
    · intro hlow
      rw [if_pos hlow] at h
      split at h <;> nomatch h
    · intro hhigh
      simp only [if_pos hhigh] at h
      split at h <;> nomatch h
  rw [readsBack_iff, readsBack_iff] at hnone
  obtain ⟨hlow, hhigh⟩ := below_spec r t
  have hpow : (0 : ℚ) < 10 ^ t := by positivity
  intro hc
  -- the interval around the number would hold the neighbour on that side, too
  rcases Nat.lt_or_ge (below r t) c with hlt | hle
  · have hstep : ((below r t + 1 : Nat) : ℚ) * 10 ^ t ≤ c * 10 ^ t := by gcongr; exact hlt
    exact hnone.2 ((rounds_numberAt r).convex hc hhigh.le hstep)
  · have hstep : (c : ℚ) * 10 ^ t ≤ below r t * 10 ^ t := by gcongr
    exact hnone.1 (hc.convex (rounds_numberAt r) hstep hlow)

theorem le_of_neighbour? {r d : Nat} {t : ℤ} (h : neighbour? r t = some d) : d ≤ below r t + 1 := by
  have hnearest := nearestPoint_eq_below_or r t
  unfold neighbour? at h
  dsimp only at h
  split at h
  · split at h
    · obtain rfl := Option.some.inj h
      omega
    · obtain rfl := Option.some.inj h
      omega
  · split at h
    · obtain rfl := Option.some.inj h
      omega
    · nomatch h

end Double

/-! ## Seventeen digits -/

theorem twoTo_le_twoTo {m n : Nat} (h : m ≤ n) : twoTo m ≤ twoTo n :=
  Nat.pow_le_pow_right (by decide) h

theorem Rank.quanta_succ_le (w r : Nat) :
    quanta w (r + 1) ≤ twoTo (w + 1) * twoTo (r / twoTo w - 1) := by
  have hw := twoTo_pos w
  by_cases h : twoTo w ≤ r
  · have hlt := Nat.mod_lt r hw
    rw [quanta_succ, quanta_of_le h, ← Nat.succ_mul, twoTo_succ]
    exact Nat.mul_le_mul_right _ (by omega)
  · have hd : r / twoTo w = 0 := Nat.div_eq_of_lt (by omega)
    rw [quanta_of_lt (by rw [twoTo_succ]; omega), hd, twoTo_succ]
    simp only [Nat.zero_sub, twoTo_zero]
    omega

namespace Double

/-- The gaps between neighbours do not get smaller, and each is a fraction of the
    number above it that is bounded below. -/
theorem gap_spec {r : Nat} (hr : 0 < r) :
    numberAt r ≤ 2 ^ 53 * (numberAt r - numberAt (r - 1)) ∧
      numberAt r - numberAt (r - 1) ≤ numberAt (r + 1) - numberAt r := by
  obtain ⟨s, rfl⟩ : ∃ s, r = s + 1 := ⟨r - 1, by omega⟩
  have hsmall := Rank.quanta_succ_le 52 s
  have hgap : twoTo (s / twoTo 52 - 1) ≤ twoTo ((s + 1) / twoTo 52 - 1) :=
    twoTo_le_twoTo (Nat.sub_le_sub_right (Nat.div_le_div_right (Nat.le_succ s)) 1)
  have hlow : (Rank.quanta 52 (s + 1) : ℚ) = Rank.quanta 52 s + twoTo (s / twoTo 52 - 1) := by
    exact_mod_cast Rank.quanta_succ 52 s
  have hhigh : (Rank.quanta 52 (s + 1 + 1) : ℚ) =
      Rank.quanta 52 (s + 1) + twoTo ((s + 1) / twoTo 52 - 1) := by
    exact_mod_cast Rank.quanta_succ 52 (s + 1)
  have hgap' : (twoTo (s / twoTo 52 - 1) : ℚ) ≤ twoTo ((s + 1) / twoTo 52 - 1) := by
    exact_mod_cast hgap
  have hsmall' : (Rank.quanta 52 (s + 1) : ℚ) ≤ 2 ^ 53 * twoTo (s / twoTo 52 - 1) := by
    have hpow : (twoTo (52 + 1) : ℚ) = 2 ^ 53 := Nat.cast_pow 2 53
    rw [← hpow]
    exact_mod_cast hsmall
  unfold numberAt
  rw [Nat.add_sub_cancel, ← sub_div, ← sub_div, ← mul_div_assoc,
    div_le_div_iff_of_pos_right cast_unity_pos, div_le_div_iff_of_pos_right cast_unity_pos]
  constructor
  · linarith
  · linarith

/-- **On a grid with seventeen digits the nearest point is rounded to the rank.** -/
theorem rounds_nearestPoint {r : Nat} (hr : 0 < r) {t : ℤ} (h : 10 ^ t * 10 ^ 16 ≤ numberAt r) :
    Rounds r (nearestPoint r t * 10 ^ t) := by
  obtain ⟨hnumber, hgap⟩ := gap_spec hr
  have hnear := abs_nearestPoint_sub_le r t
  have hpos := numberAt_pos hr
  -- a step of the grid is less than the gap to either neighbour
  have hstep : (10 : ℚ) ^ t < numberAt r - numberAt (r - 1) := by
    norm_num at h hnumber
    linarith
  have hleft := neg_le_of_abs_le (le_refl |(nearestPoint r t : ℚ) * 10 ^ t - numberAt r|)
  have hright := le_of_abs_le (le_refl |(nearestPoint r t : ℚ) * 10 ^ t - numberAt r|)
  refine rounds_iff.2 ⟨⟨by linarith, by linarith⟩, fun htie => ?_⟩
  rcases htie with htie | htie <;> linarith

/-! ## The search -/

theorem finer_sub (t : ℤ) (n : Nat) : t - 1 - n = t - (n + 1 : Nat) := by omega

/-- Where the search ends: at a neighbour that reads back, or at the nearest point of
    the last grid, and all grids before were left. -/
theorem shortestFrom_spec (r fuel : Nat) (t : ℤ) :
    ∃ i ≤ fuel, (shortestFrom r fuel t).2 = t - i ∧
      (neighbour? r (t - i) = some (shortestFrom r fuel t).1 ∨
        i = fuel ∧ (shortestFrom r fuel t).1 = nearestPoint r (t - i)) ∧
      ∀ j < i, neighbour? r (t - j) = none := by
  induction fuel generalizing t with
  | zero =>
    have hzero : t - (0 : Nat) = t := by omega
    exact ⟨0, Nat.le_refl 0, hzero.symm, .inr ⟨rfl, by rw [hzero]; rfl⟩, nofun⟩
  | succ fuel ih =>
    unfold shortestFrom
    cases hn : neighbour? r t with
    | some d =>
      have hzero : t - (0 : Nat) = t := by omega
      exact ⟨0, Nat.zero_le _, hzero.symm, .inl (by rwa [hzero]), nofun⟩
    | none =>
      obtain ⟨i, hi, hexponent, hend, hleft⟩ := ih (t - 1)
      simp only [finer_sub] at hexponent hend hleft
      refine ⟨i + 1, Nat.succ_le_succ hi, hexponent, ?_, fun j hj => ?_⟩
      · rcases hend with hend | ⟨rfl, hend⟩
        · exact .inl hend
        · exact .inr ⟨rfl, hend⟩
      · cases j with
        | zero => simpa using hn
        | succ j => exact hleft j (Nat.lt_of_succ_lt_succ hj)

theorem shortest_spec {r : Nat} (hr : 0 < r) :
    ∃ (k : ℤ) (i : Nat), (10 ^ (k - 1) ≤ numberAt r ∧ numberAt r < 10 ^ k) ∧
      (shortest r).2 = k - (i + 1 : Nat) ∧ (shortest r).1 ≤ tenTo (i + 1) ∧
      Rounds r ((shortest r).1 * 10 ^ (shortest r).2) ∧
      ∀ j < i, ∀ c : Nat, ¬ Rounds r (c * 10 ^ (k - (j + 1 : Nat))) := by
  have hquanta : 0 < Rank.quanta 52 r := by
    rw [← Rank.quanta_zero 52]
    exact Rank.quanta_lt_quanta hr
  have hfirst := magnitude_spec hquanta unity_pos
  unfold shortest
  generalize magnitude (Rank.quanta 52 r) unity = k at hfirst ⊢
  obtain ⟨i, hi, hexponent, hend, hleft⟩ := shortestFrom_spec r 16 (k - 1)
  generalize shortestFrom r 16 (k - 1) = found at hexponent hend ⊢
  obtain ⟨d, t⟩ := found
  simp only [finer_sub] at hexponent hend hleft ⊢
  subst hexponent
  refine ⟨k, i, hfirst, rfl, ?_, ?_, fun j hj c => not_rounds_of_neighbour? (hleft j hj) c⟩
  · have hle : d ≤ below r (k - (i + 1 : Nat)) + 1 := by
      rcases hend with hend | ⟨-, rfl⟩
      · exact le_of_neighbour? hend
      · rcases nearestPoint_eq_below_or r (k - (i + 1 : Nat)) with e | e <;> omega
    have hbelow := below_lt_tenTo hfirst.2 (i + 1)
    omega
  · rcases hend with hend | ⟨rfl, rfl⟩
    · exact readsBack_iff.1 (readsBack_of_neighbour? hend)
    · refine rounds_nearestPoint hr ?_
      rw [mul_comm, ← cast_tenTo, tenTo_mul_zpow (t := k - 1) (by omega)]
      exact hfirst.1

/-- **The decimal that is found is rounded to the double.** -/
theorem rounds_shortest {r : Nat} (hr : 0 < r) :
    Rounds r ((shortest r).1 * 10 ^ (shortest r).2) := by
  obtain ⟨_, _, -, -, -, hrounds, -⟩ := shortest_spec hr
  exact hrounds

theorem exists_on_grid {n c : Nat} {k s : ℤ} (hc : c < tenTo n)
    (h : (10 : ℚ) ^ (k - 1) ≤ c * 10 ^ s) : ∃ c' : Nat, (c * 10 ^ s : ℚ) = c' * 10 ^ (k - n) := by
  have hgrid : k - n ≤ s := by
    have hlt : (c : ℚ) * 10 ^ s < 10 ^ (n + s) := by
      rw [← tenTo_mul_zpow rfl]
      gcongr
    have := (zpow_lt_zpow_iff_right₀ (by norm_num : (1 : ℚ) < 10)).1 (h.trans_lt hlt)
    omega
  refine ⟨c * tenTo (s - (k - n)).toNat, ?_⟩
  rw [Nat.cast_mul, mul_assoc, tenTo_mul_zpow (t := s) (by omega)]

/-- A number that is rounded to a rank and has so many digits is on a grid with so
    many digits, or the power of ten below is rounded to the rank as well. -/
theorem exists_grid_of_rounds {r n c : Nat} {k s : ℤ} (hr : 0 < r) (hk : 10 ^ (k - 1) ≤ numberAt r)
    (hc : c < tenTo n) (h : Rounds r (c * 10 ^ s)) :
    ∃ j < n, ∃ c' : Nat, Rounds r (c' * 10 ^ (k - (j + 1 : Nat))) := by
  have hpos := numberAt_pos hr
  have hn : 0 < n := by
    -- zero is rounded to the rank of zero only
    by_contra hzero
    obtain rfl : n = 0 := by omega
    have hlow := h.le.1
    have hprev : numberAt 0 ≤ numberAt (r - 1) := numberAt_le_numberAt (Nat.zero_le _)
    rw [Nat.lt_one_iff.1 hc, Nat.cast_zero, zero_mul] at hlow
    rw [numberAt_zero] at hprev
    linarith
  rcases le_total ((10 : ℚ) ^ (k - 1)) (c * 10 ^ s) with hle | hle
  · obtain ⟨c', hvalue⟩ := exists_on_grid hc hle
    refine ⟨n - 1, by omega, c', ?_⟩
    rwa [Nat.sub_add_cancel hn, ← hvalue]
  · refine ⟨0, hn, 1, ?_⟩
    rw [Nat.cast_one, one_mul, zero_add, Nat.cast_one]
    exact h.convex (rounds_numberAt r) hle hk

/-- **No decimal that is rounded to the double has fewer digits**: with as many digits
    as any of them has, the one that is found can be written, too. -/
theorem exists_digits_shortest {r n c : Nat} {s : ℤ} (hr : 0 < r) (hc : c < tenTo n)
    (h : Rounds r (c * 10 ^ s)) :
    ∃ (d : Nat) (t : ℤ), d < tenTo n ∧
      ((shortest r).1 * 10 ^ (shortest r).2 : ℚ) = d * 10 ^ t := by
  obtain ⟨k, i, ⟨hk, -⟩, hexponent, hdigits, -, hleft⟩ := shortest_spec hr
  obtain ⟨j, hj, c', hc'⟩ := exists_grid_of_rounds hr hk hc h
  have hi : i < n := by
    by_contra hle
    exact hleft j (by omega) c' hc'
  rcases Nat.lt_or_eq_of_le hdigits with hlt | heq
  · exact ⟨_, _, Nat.lt_of_lt_of_le hlt (tenTo_le_tenTo hi), rfl⟩
  · -- a power of ten that was rounded up to has a single digit
    refine ⟨1, k, Nat.lt_of_lt_of_le (by decide : 1 < tenTo 1)
      (tenTo_le_tenTo (by omega)), ?_⟩
    rw [heq, hexponent, Nat.cast_one, one_mul]
    exact tenTo_mul_zpow (by omega)

end Double

end ScriptLiteral
