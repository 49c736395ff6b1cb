/-
  Script literals — integers as keys of a map.

  A key is converted like any datum, and its text is taken from the value.  So an
  integer key, alone or under wrappers, becomes its decimal text as long as 64
  signed bits hold it; a wider one has become a double by then, and a double is no
  key.

  * `keyText_ofInt` is the text of the value of an integer;
  * `Datum.Wrapped m d` says that `d` is the integer `m` under wrappers, and
    `runCalls_key` is what a key call does;
  * `Datum.runCalls_wideKey`: the least unsigned word that is refused as a key;
  * `Datum.runCalls_integerKey`: an integer key is accepted iff it fits, and
    different integers that are accepted become different keys.
-/
import ScriptLiteral.Datum.Convert
import ScriptLiteral.Proofs.ReducedNumber

namespace ScriptLiteral

/-! ## The text of a key -/

theorem keyText_ofInt (i : Int) : keyText (.ofInt i) =
    if -0x8000000000000000 ≤ i ∧ i < 0x8000000000000000 then .ok i.repr
    else .error (.unusableKey "float") := by
  have hmin : Int64.minValue.toInt = -0x8000000000000000 := rfl
  have hmax : Int64.maxValue.toInt = 0x7FFFFFFFFFFFFFFF := rfl
  unfold Value.ofInt
  by_cases h : -0x8000000000000000 ≤ i ∧ i < 0x8000000000000000
  · rw [if_pos ⟨by omega, by omega⟩, if_pos h, keyText, Int64.toInt_ofInt_of_le h.1 h.2,
      Decimal.text_ofInt]
  · rw [if_neg (by omega), if_neg h]
    rfl

/-- 64 signed bits hold the integers of all types but three. -/
theorem IntType.bounds_of_ne {t : IntType} (h₁ : t ≠ ⟨false, .w64⟩) (h₂ : t.width ≠ .w128) :
    -0x8000000000000000 ≤ t.least ∧ t.greatest < 0x8000000000000000 := by
  obtain ⟨signed, width⟩ := t
  revert h₁ h₂
  cases signed <;> cases width <;> decide

namespace Datum

/-! ## Integers under wrappers -/

/-- The datum is an integer under any number of wrappers. -/
inductive Wrapped (m : MachineInt) : Datum → Prop where
  | integer : Wrapped m (.integer m)
  | present {d : Datum} (h : Wrapped m d) : Wrapped m (.present d)
  | wrapper {d : Datum} (name : String) (h : Wrapped m d) : Wrapped m (.wrapper name d)

theorem Wrapped.toValue_eq {m : MachineInt} {d : Datum} (h : d.Wrapped m) :
    d.toValue = .ok (.ofInt m.val) := by
  induction h with
  | integer => rw [toValue]; rfl
  | present _ ih => rw [toValue, ih]
  | wrapper _ _ ih => rw [toValue, ih]

theorem runCalls_key {d : Datum} {v : Value} (hd : d.toValue = .ok v) (b : MapBuilder) :
    runCalls b [.key d] = (keyText v).map fun k => ⟨b.entries, some k⟩ := by
  have hvalue : d.toValue = pure v := hd
  simp only [runCalls, hvalue, pure_bind, MapBuilder.setKey]
  cases keyText v <;> rfl

theorem Wrapped.runCalls_eq {m : MachineInt} {d : Datum} (h : d.Wrapped m) (b : MapBuilder) :
    runCalls b [.key d] =
      if -0x8000000000000000 ≤ m.val ∧ m.val < 0x8000000000000000 then
        .ok ⟨b.entries, some m.val.repr⟩
      else .error (.unusableKey "float") := by
  rw [runCalls_key h.toValue_eq, keyText_ofInt]
  split <;> rfl

/-! ## Keys -/

/-- The least unsigned word that 64 signed bits do not hold. -/
def wideKey : MachineInt := ⟨⟨false, .w64⟩, 0x8000000000000000, by decide, by decide⟩

/-- **An unsigned word can be refused as a key**, though the reason says that
    integers are keys. -/
theorem runCalls_wideKey :
    runCalls .empty [.key (.integer wideKey)] = .error (.unusableKey "float") ∧
      DatumFault.message (.unusableKey "float") =
        "map key must be a string or an integer, found float" ∧
      runCalls .empty [.key (.integer wideKey)] ≠ .ok ⟨.empty, some wideKey.val.repr⟩ := by
  have hrefused : runCalls .empty [.key (.integer wideKey)] = .error (.unusableKey "float") := rfl
  refine ⟨hrefused, rfl, ?_⟩
  rw [hrefused]
  exact nofun

/-- **An integer key is its decimal text if 64 signed bits hold it, and is refused
    otherwise.**  Wrappers make no difference; the integers of all types but the
    unsigned one of 64 bits and the two of 128 are accepted, and different integers
    that are accepted become different keys. -/
theorem runCalls_integerKey {m n : MachineInt} {d e : Datum} (hd : d.Wrapped m)
    (he : e.Wrapped n) (b : MapBuilder) :
    (runCalls b [.key d] =
      if -0x8000000000000000 ≤ m.val ∧ m.val < 0x8000000000000000 then
        .ok ⟨b.entries, some m.val.repr⟩
      else .error (.unusableKey "float")) ∧
      (m.type ≠ ⟨false, .w64⟩ → m.type.width ≠ .w128 →
        runCalls b [.key d] = .ok ⟨b.entries, some m.val.repr⟩) ∧
      ∀ b₁ b₂, runCalls b [.key d] = .ok b₁ → runCalls b [.key e] = .ok b₂ →
        (b₁.pending = b₂.pending ↔ m.val = n.val) := by
  have hm := hd.runCalls_eq b
  have hn := he.runCalls_eq b
  refine ⟨hm, fun h₁ h₂ => ?_, fun b₁ b₂ hb₁ hb₂ => ?_⟩
  · have hbounds := IntType.bounds_of_ne h₁ h₂
    have hleast := m.least_le
    have hgreatest := m.le_greatest
    rw [hm, if_pos ⟨by omega, by omega⟩]
  · rw [hm] at hb₁
    rw [hn] at hb₂
    split at hb₁
    · split at hb₂
      · cases hb₁
        cases hb₂
        constructor
        · intro h
          exact Int.repr_injective (Option.some.inj h)
        · intro h
          rw [h]
      · nomatch hb₂
    · nomatch hb₁

/-- The least signed word, under two wrappers. -/
def leastKey : MachineInt := ⟨⟨true, .w64⟩, -0x8000000000000000, by decide, by decide⟩

theorem runCalls_integerKey_least :
    Wrapped leastKey (.present (.wrapper "Id" (.integer leastKey))) ∧
      Wrapped wideKey (.integer wideKey) ∧
      runCalls .empty [.key (.present (.wrapper "Id" (.integer leastKey)))] =
        .ok ⟨.empty, some "-9223372036854775808"⟩ := by
  have hleast : Wrapped leastKey (.present (.wrapper "Id" (.integer leastKey))) :=
    .present (.wrapper "Id" .integer)
  obtain ⟨-, haccepted, -⟩ := runCalls_integerKey hleast (e := .integer wideKey) .integer .empty
  exact ⟨hleast, .integer, haccepted (by decide) (by decide)⟩

end Datum

end ScriptLiteral
