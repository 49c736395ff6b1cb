/-
  Script literals — the milliseconds of an instant.

  The literal of an instant is a date of its distance from the epoch in
  milliseconds, which is a decimal with at most three places.

  * `Timestamp.totalMicros_bounds`: the microseconds never leave 128 signed bits;
  * `Timestamp.value_milliseconds` is the exact value of the text, and
    `text_milliseconds_ne`: a zero has no sign;
  * `Timestamp.text_milliseconds_inj`: the text tells the microseconds;
  * `Value.literal_instants` is what a date literal says of its instant.
-/
import ScriptLiteral.Literal.Emit
import ScriptLiteral.MachineInt
import ScriptLiteral.Proofs.ReducedNumber

namespace ScriptLiteral

theorem Decimal.value_ofSigned (i : ℤ) (places : Nat) :
    Decimal.value ⟨decide (i < 0), i.natAbs, places⟩ = (i : ℚ) / tenTo places := by
  unfold value
  simp only [decide_eq_true_eq, Nat.cast_natAbs]
  split
  · next h => rw [abs_of_neg h, Int.cast_neg, neg_neg]
  · next h => rw [abs_of_nonneg (not_lt.1 h)]

namespace Timestamp

/-- The microseconds of the seconds, and all of them, fit into 128 signed bits. -/
theorem totalMicros_bounds (t : Timestamp) :
    (IntType.least ⟨true, .w128⟩ ≤ t.seconds.toInt * 1000000 ∧
      t.seconds.toInt * 1000000 ≤ IntType.greatest ⟨true, .w128⟩) ∧
    IntType.least ⟨true, .w128⟩ ≤ t.totalMicros ∧
      t.totalMicros ≤ IntType.greatest ⟨true, .w128⟩ := by
  have hleast : IntType.least ⟨true, .w128⟩ = -0x80000000000000000000000000000000 := by decide
  have hgreatest : IntType.greatest ⟨true, .w128⟩ = 0x7FFFFFFFFFFFFFFFFFFFFFFFFFFFFFFF := by decide
  have hmin : Int64.minValue.toInt = -0x8000000000000000 := rfl
  have hmax : Int64.maxValue.toInt = 0x7FFFFFFFFFFFFFFF := rfl
  have hlow := t.seconds.minValue_le_toInt
  have hhigh := t.seconds.toInt_le
  have hmicros := t.micros.toNat_lt
  rw [hleast, hgreatest, totalMicros]
  omega

theorem totalMicros_ofNanos (seconds : Int64) (nanos : UInt32) :
    (ofNanos seconds nanos).totalMicros =
      seconds.toInt * 1000000 + (nanos.toNat / 1000 : Nat) := by
  rw [totalMicros, ofNanos, UInt32.toNat_div]
  rfl

theorem value_milliseconds (t : Timestamp) :
    t.milliseconds.plain.value = (t.totalMicros : ℚ) / 1000 := by
  have hten : (tenTo 3 : ℚ) = 1000 := by rw [cast_tenTo]; norm_num
  rw [Decimal.value_plain, milliseconds, Decimal.value_ofSigned, hten]

/-! ## Truncating division -/

/-- The milliseconds by division toward zero: the whole part, with the sign that it
    loses if it is zero, and the remainder in three digits without the zeros at their
    end. -/
def truncated (t : Timestamp) : List Char :=
  let whole := t.totalMicros.tdiv 1000
  let remainder := (t.totalMicros.tmod 1000).natAbs
  (if t.totalMicros < 0 ∧ whole = 0 then ['-'] else []) ++ whole.repr.toList ++
    if remainder = 0 then [] else '.' :: (Decimal.lastDigits 3 remainder).rdropWhile isZero

/-- The milliseconds are written as division toward zero finds them. -/
theorem chars_milliseconds (t : Timestamp) : t.milliseconds.chars = t.truncated := by
  have hten : tenTo 3 = 1000 := rfl
  have hwhole : (t.totalMicros.tdiv 1000).natAbs = t.totalMicros.natAbs / 1000 :=
    Int.natAbs_tdiv ..
  have hremainder : (t.totalMicros.tmod 1000).natAbs = t.totalMicros.natAbs % 1000 :=
    Int.natAbs_tmod ..
  unfold truncated milliseconds
  rw [Decimal.chars_eq, hten]
  simp only [hremainder, decide_eq_true_eq]
  congr 1
  rw [← Decimal.text_ofInt, Decimal.text, String.toList_ofList, Decimal.chars_ofInt, hwhole,
    ← List.append_assoc]
  congr 1
  -- the sign is written once: with the whole part, or instead of it
  generalize t.totalMicros = total
  by_cases hneg : total < 0
  · have hle : 0 ≤ (-total).tdiv 1000 := Int.tdiv_nonneg (by omega) (by decide)
    rw [Int.neg_tdiv] at hle
    by_cases hzero : total.tdiv 1000 = 0
    · rw [if_pos hneg, if_pos ⟨hneg, hzero⟩, if_neg (by omega)]
      rfl
    · rw [if_pos hneg, if_neg fun h => hzero h.2, if_pos (by omega)]
      rfl
  · have hge : 0 ≤ total.tdiv 1000 := Int.tdiv_nonneg (by omega) (by decide)
    rw [if_neg hneg, if_neg fun h => hneg h.1, if_neg (by omega)]
    rfl

/-! ## Text -/

theorem text_milliseconds_ne (t : Timestamp) : t.milliseconds.text ≠ "-0" := by
  intro h
  have hread := t.milliseconds.read_text
  rw [h] at hread
  have hplain : (⟨true, ['0'], []⟩ : PlainNumber) = t.milliseconds.plain := by
    have hzero : PlainNumber.read "-0".toList = some (⟨true, ['0'], []⟩, []) := by decide
    rw [hzero] at hread
    exact congrArg Prod.fst (Option.some.inj hread)
  have hnegative : t.totalMicros < 0 :=
    of_decide_eq_true (congrArg PlainNumber.negative hplain).symm
  have hvalue := t.value_milliseconds
  rw [← hplain] at hvalue
  have hzero : (t.totalMicros : ℚ) / 1000 = 0 := by
    rw [← hvalue]
    norm_num [PlainNumber.value, PlainNumber.magnitude, Nat.ofDigitChars_cons]
  have : (t.totalMicros : ℚ) < 0 := by exact_mod_cast hnegative
  linarith

theorem text_milliseconds_inj {t u : Timestamp} :
    t.milliseconds.text = u.milliseconds.text ↔ t.totalMicros = u.totalMicros := by
  constructor
  · intro h
    have hread := t.milliseconds.read_text
    rw [h, u.milliseconds.read_text] at hread
    have hplain : u.milliseconds.plain = t.milliseconds.plain :=
      congrArg Prod.fst (Option.some.inj hread)
    have hvalue := t.value_milliseconds
    rw [← hplain, u.value_milliseconds, div_left_inj' (by norm_num)] at hvalue
    exact_mod_cast hvalue.symm
  · intro h
    rw [milliseconds_inj.2 h]

end Timestamp

namespace Value

variable {o p : HostObject Value} {t u : Timestamp}

theorem literal_instant (h : o.resolution? = some (.instant t)) :
    (object o).literal = .ok ("new Date(" ++ t.milliseconds.text ++ ")") := by
  have hrun : (Literal.emit (.object o)).run .empty =
      .ok () ⟨"" ++ Literal.ofTimestamp t, #[.resolving o.typeName .temporalValue]⟩ := by
    rw [Literal.emit_object, h]
    rfl
  unfold literal emission
  rw [hrun, String.empty_append]
  rfl

/-- **The literal of an instant is its exact distance from the epoch.**

    Between its brackets stands a reduced number with at most three digits behind the
    point, never a zero with a sign, and its value is the number of milliseconds; so
    two instants have one literal iff they have the same microseconds.  A date has the
    literal of its seconds and whole microseconds, on whichever clock it is. -/
theorem literal_instants (ho : o.resolution? = some (.instant t))
    (hp : p.resolution? = some (.instant u)) :
    (∃ (text : String) (n : PlainNumber),
      (object o).literal = .ok ("new Date(" ++ text ++ ")") ∧
      text.toList = t.truncated ∧ text.toList = n.chars ∧
      PlainNumber.read text.toList = some (n, []) ∧ n.Reduced ∧ n.fraction.length ≤ 3 ∧
      text ≠ "-0" ∧
      n.value = (t.seconds.toInt * 1000000 + t.micros.toNat : ℚ) / 1000) ∧
    ((object o).literal = (object p).literal ↔ t.totalMicros = u.totalMicros) ∧
    (∀ identity clock seconds nanos,
      (object (.ofDate identity clock (.ofNanos seconds nanos))).literal = (object o).literal ↔
        t.totalMicros = seconds.toInt * 1000000 + (nanos.toNat / 1000 : Nat)) ∧
    ((IntType.least ⟨true, .w128⟩ ≤ t.seconds.toInt * 1000000 ∧
        t.seconds.toInt * 1000000 ≤ IntType.greatest ⟨true, .w128⟩) ∧
      IntType.least ⟨true, .w128⟩ ≤ t.totalMicros ∧
        t.totalMicros ≤ IntType.greatest ⟨true, .w128⟩) := by
  have hsame : ∀ {q : HostObject Value} {v : Timestamp}, q.resolution? = some (.instant v) →
      ((object o).literal = (object q).literal ↔ t.totalMicros = v.totalMicros) := by
    intro q v hq
    rw [literal_instant ho, literal_instant hq, Except.ok.injEq, String.append_left_inj,
      String.append_right_inj, Timestamp.text_milliseconds_inj]
  refine ⟨⟨t.milliseconds.text, t.milliseconds.plain, literal_instant ho, ?_, ?_,
    t.milliseconds.read_text, t.milliseconds.reduced_plain,
    t.milliseconds.length_fraction_plain_le, t.text_milliseconds_ne, ?_⟩, hsame hp,
    fun identity clock seconds nanos => ?_, t.totalMicros_bounds⟩
  · rw [← Timestamp.chars_milliseconds]
    exact String.toList_ofList
  · rw [Decimal.chars_plain]
    exact String.toList_ofList
  · rw [t.value_milliseconds, Timestamp.totalMicros, Int.cast_add, Int.cast_mul]
    rfl
  · rw [eq_comm, hsame (q := .ofDate identity clock (.ofNanos seconds nanos)) rfl,
      Timestamp.totalMicros_ofNanos]

/-- Half a millisecond before the epoch, by a clock of its own. -/
def halfBefore : HostObject Value where
  identity := 0
  typeName := "Clock"
  debugText := ""
  instant := some ⟨-1, 999500⟩

theorem literal_instants_halfBefore :
    halfBefore.resolution? = some (.instant ⟨-1, 999500⟩) ∧
      (object halfBefore).literal = .ok "new Date(-0.5)" ∧
      (object (.ofDate 1 .fixedOffset (.ofNanos (-2) 1999500999))).literal =
        (object halfBefore).literal := by
  have hresolution : halfBefore.resolution? = some (.instant ⟨-1, 999500⟩) := rfl
  obtain ⟨-, -, hdates, -⟩ := literal_instants hresolution hresolution
  exact ⟨hresolution, by rfl, (hdates 1 .fixedOffset (-2) 1999500999).2 (by decide)⟩

end Value

end ScriptLiteral
