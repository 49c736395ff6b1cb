/-
  Script literals — how a map comes to be indexed, and how it ceases to be.

  An indexed map stays indexed when a value is replaced or the next position is added.
  Any other key ends it, and no later entry can mend it: keys keep their places.

  * `isIndexed_insert_iff`: what one insertion does;
  * `Call.renews`: the calls that put a new map in the place of the old one;
    `isIndexed_of_step` and `isIndexed_of_run`: no other calls make a map indexed;
  * `isIndexed_iff_firstKeys`: whether a map is indexed, read off its history;
  * `isIndexed_history`: all of this for every map that calls lead to, and the literal
    that the map has.
-/
import ScriptLiteral.Proofs.Composition
import ScriptLiteral.Proofs.MapHistory

namespace ScriptLiteral

namespace OrderedMap

variable {α : Type} {m : OrderedMap α}

/-! ## One insertion -/

theorem mem_keys_iff_of_isIndexed (hm : m.isIndexed = true) {k : String} :
    k ∈ m.keys ↔ ∃ j < m.size, k = positionKey j := by
  rw [isIndexed_iff.1 hm]
  simp [eq_comm]

/-- **An insertion leaves a map indexed iff it was indexed and the key is one of its
    positions or the next one.** -/
theorem isIndexed_insert_iff {k : String} {v : α} :
    (m.insert k v).isIndexed = true ↔ m.isIndexed = true ∧ ∃ j ≤ m.size, k = positionKey j := by
  unfold isIndexed
  rw [keys_insert]
  by_cases hk : k ∈ m.keys
  · -- the value is replaced, and the keys stay
    rw [if_pos hk]
    constructor
    · intro hm
      obtain ⟨j, hj, rfl⟩ := (mem_keys_iff_of_isIndexed hm).1 hk
      exact ⟨hm, j, hj.le, rfl⟩
    · rintro ⟨hm, -⟩
      exact hm
  · -- the key comes last
    rw [if_neg hk, countsFrom_append, Bool.and_eq_true, Nat.zero_add, length_keys]
    simp only [countsFrom, Bool.and_true, beq_iff_eq, index?_eq_some_iff_positionKey]
    constructor
    · rintro ⟨hm, rfl⟩
      exact ⟨hm, m.size, le_rfl, rfl⟩
    · rintro ⟨hm, j, hj, rfl⟩
      refine ⟨hm, ?_⟩
      rcases hj.eq_or_lt with rfl | hlt
      · rfl
      · exact absurd ((mem_keys_iff_of_isIndexed hm).2 ⟨j, hlt, rfl⟩) hk

theorem isIndexed_of_insert {k : String} {v : α} (h : (m.insert k v).isIndexed = true) :
    m.isIndexed = true :=
  (isIndexed_insert_iff.1 h).1

theorem isIndexed_of_extend {pairs : List (String × α)} (h : (m.extend pairs).isIndexed = true) :
    m.isIndexed = true := by
  induction pairs generalizing m with
  | nil => exact h
  | cons p pairs ih => exact isIndexed_of_insert (ih h)

/-! ## Calls -/

/-- The call puts a new map in the place of the old one. -/
def Call.renews : Call α → Bool
  | .collect .. => true
  | .ofVector _ => true
  | _ => false

theorem isIndexed_of_step {c : Call α} (hc : c.renews = false)
    (h : (m.step c).2.isIndexed = true) : m.isIndexed = true := by
  cases c with
  | insert k v => exact isIndexed_of_insert h
  | extend pairs => exact isIndexed_of_extend h
  | collect expected pairs => cases hc
  | ofVector pairs => cases hc
  | _ => exact h

theorem isIndexed_of_run {calls : List (Call α)} (hcalls : ∀ c ∈ calls, c.renews = false)
    (h : (m.run calls).2.isIndexed = true) : m.isIndexed = true := by
  induction calls generalizing m with
  | nil => exact h
  | cons c calls ih =>
    obtain ⟨hc, hcalls⟩ := List.forall_mem_cons.1 hcalls
    exact isIndexed_of_step hc (ih hcalls h)

/-- A map is indexed iff the keys of its history first occur in the order of the
    positions. -/
theorem Describes.isIndexed_iff_firstKeys {h : List (String × α)} (hm : Describes h m) :
    m.isIndexed = true ↔ firstKeys h = (List.range (firstKeys h).length).map positionKey := by
  rw [isIndexed_iff, ← length_keys, hm.keys]

end OrderedMap

namespace Value

open OrderedMap

theorem exists_eq_enclosed {x : Except Fault (List String)} {left right t : String}
    (h : x.map (enclosed left right) = .ok t) : ∃ ts, t = enclosed left right ts := by
  cases x with
  | error f => cases h
  | ok ts => exact ⟨ts, (Except.ok.inj h).symm⟩

/-- The literal of a map opens with the bracket of lists iff the map is indexed. -/
theorem head?_of_literal_map {m : OrderedMap Value} {t : String}
    (h : (Value.map m).literal = .ok t) : t.toList.head? = some '[' ↔ m.isIndexed = true := by
  rw [literal_map] at h
  split at h
  · next hm =>
    obtain ⟨ts, rfl⟩ := exists_eq_enclosed h
    simp [enclosed, hm]
  · next hm =>
    obtain ⟨ts, rfl⟩ := exists_eq_enclosed h
    simp [enclosed, hm]

/-- **When a map is indexed, over its whole history.**  Start from an empty map with any
    room and make any calls.

    An insertion into the map leaves it indexed iff it was indexed and the key is the
    decimal text of a number up to its size.  A map that is not indexed stays so, whatever
    is inserted, extended or looked up later.

    The map is indexed, and its literal if it has one is a list, iff the keys of its history
    first occur as `0`, `1`, `2` and so on; then the literal is that of the list of the last
    values. -/
theorem isIndexed_history (room : Nat) (calls : List (Call Value)) :
    let h := history [] calls
    let m := ((withCapacity room).run calls).2
    let positions := (List.range (firstKeys h).length).map positionKey
    (∀ k v, (m.insert k v).isIndexed = true ↔
      m.isIndexed = true ∧ ∃ j ≤ m.size, k = positionKey j) ∧
    (m.isIndexed = false → ∀ later : List (Call Value), (∀ c ∈ later, c.renews = false) →
      (m.run later).2.isIndexed = false) ∧
    (m.isIndexed = true ↔ firstKeys h = positions) ∧
    (∀ t, (Value.map m).literal = .ok t →
      (t.toList.head? = some '[' ↔ firstKeys h = positions)) ∧
    (firstKeys h = positions →
      (Value.map m).literal = (Value.list ((association h).map (·.2))).literal) := by
  intro h m positions
  have hm : Describes h m := ((describes_withCapacity room).run calls).2
  have hindexed : m.isIndexed = true ↔ firstKeys h = positions := hm.isIndexed_iff_firstKeys
  refine ⟨fun k v => isIndexed_insert_iff, ?_, hindexed, ?_, ?_⟩
  · intro hnot later hlater
    rw [← Bool.not_eq_true] at hnot ⊢
    intro hlast
    exact hnot (isIndexed_of_run hlater hlast)
  · intro t ht
    rw [head?_of_literal_map ht, hindexed]
  · intro hkeys
    rw [literal_map, if_pos (hindexed.2 hkeys), literal_list, OrderedMap.values, hm.entries_eq]

/-- Calls that add the position two before the position one. -/
def skippingCalls : List (Call Value) :=
  [.insert "0" (.bool true), .extend [("2", .null), ("0", .null)]]

/-- Calls that add the position one after all, and look it up. -/
def mendingCalls : List (Call Value) := [.insert "1" .null, .get "1", .extend [("2", .null)]]

theorem isIndexed_history_skipping :
    ((withCapacity 3).run skippingCalls).2.isIndexed = false ∧
      (∀ c ∈ mendingCalls, c.renews = false) ∧
        (((withCapacity 3).run skippingCalls).2.run mendingCalls).2.isIndexed = false ∧
          (Value.map ((withCapacity 3).run [.collect 0 [("0", .null), ("1", .string "it's"),
            ("0", .bool true)]]).2).literal = (Value.list [.bool true, .string "it's"]).literal := by
  have hskipped : ((withCapacity 3).run skippingCalls).2.isIndexed = false := by decide
  have hmending : ∀ c ∈ mendingCalls, c.renews = false := by
    simp [mendingCalls, Call.renews]
  obtain ⟨-, hstays, -⟩ := isIndexed_history 3 skippingCalls
  obtain ⟨-, -, -, -, hlist⟩ := isIndexed_history 3
    [.collect 0 [("0", .null), ("1", .string "it's"), ("0", .bool true)]]
  exact ⟨hskipped, hmending, hstays hskipped mendingCalls hmending, hlist (by decide)⟩

end Value

end ScriptLiteral
