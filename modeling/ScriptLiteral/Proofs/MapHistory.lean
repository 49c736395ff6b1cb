/-
  Script literals — a map is the association list of its history.

  The history of a map is the list of all pairs inserted since it was created.
  Its association list has the keys in the order of their first occurrence, each
  with its last value.

  * `Call` and `Answer`: what a map can be asked to do, and what comes back;
    `step` and `run` do it;
  * `firstKeys`, `lastValue?` and `association` read a history, `record` is what a
    call adds to it and `answer` what a call answers, both without any map;
  * `Describes`: the invariant that ties a map to its history
    (`Describes.step`, `Describes.run`);
  * `run_withCapacity`: every run from an empty map answers what its history says
    and ends in the association list of its history, and maps of the same pairs
    are the same, however the pairs came in.
-/
import Mathlib.Data.List.Basic
import ScriptLiteral.OrderedMap

namespace ScriptLiteral

namespace OrderedMap

variable {α : Type}

/-! ## Calls -/

/-- A call of a map.  `collect` and `ofVector` put a new map in its place. -/
inductive Call (α : Type) where
  | insert (k : String) (v : α)
  | extend (pairs : List (String × α))
  | collect (expected : Nat) (pairs : List (String × α))
  | ofVector {n : Nat} (pairs : Vector (String × α) n)
  | get (k : String)
  | contains (k : String)
  | size
  | isEmpty
  | keys
  | values
  | entries
  /-- Start a walk and take some steps of it. -/
  | walk (steps : Nat)

/-- What a step of a walk shows: the hint before it, and the entry it takes. -/
abbrev Sight (α : Type) := (Nat × Option Nat) × Option (String × α)

/-- The answer to a call. -/
inductive Answer (α : Type) where
  | done
  | value (v : Option α)
  | truth (b : Bool)
  | count (n : Nat)
  | keys (ks : List String)
  | values (vs : List α)
  | entries (es : List (String × α))
  | sights (seen : List (Sight α))

/-- What some steps of a walk show. -/
def Cursor.sights (c : Cursor α) : Nat → List (Sight α)
  | 0 => []
  | n + 1 => (c.hint, c.next.1) :: c.next.2.sights n

/-- Answer a call. -/
def step (m : OrderedMap α) : Call α → Answer α × OrderedMap α
  | .insert k v => let (old, m') := m.getThenInsert? k v; (.value old, m')
  | .extend pairs => (.done, m.extend pairs)
  | .collect expected pairs => (.done, .collect expected pairs)
  | .ofVector pairs => (.done, .ofVector pairs)
  | .get k => (.value (m.get? k), m)
  | .contains k => (.truth (m.contains k), m)
  | .size => (.count m.size, m)
  | .isEmpty => (.truth m.isEmpty, m)
  | .keys => (.keys m.keys, m)
  | .values => (.values m.values, m)
  | .entries => (.entries m.entries, m)
  | .walk steps => (.sights (m.cursor.sights steps), m)

/-- Answer calls one after the other. -/
def run (m : OrderedMap α) : List (Call α) → List (Answer α) × OrderedMap α
  | [] => ([], m)
  | c :: cs =>
    let (a, m') := m.step c
    let (as, m'') := m'.run cs
    (a :: as, m'')

/-- The calls that insert pairs one by one. -/
def insertions (pairs : List (String × α)) : List (Call α) :=
  pairs.map fun p => .insert p.1 p.2

/-! ## Histories -/

/-- The keys of a history, each where it first occurs. -/
def firstKeys (h : List (String × α)) : List String := (h.map (·.1)).eraseDups

/-- The last value of a key in a history. -/
def lastValue? (h : List (String × α)) (k : String) : Option α := h.reverse.lookup k

/-- The association list of a history: the keys in the order of their first
    occurrence, with their last values. -/
def association (h : List (String × α)) : List (String × α) :=
  (firstKeys h).filterMap fun k => (lastValue? h k).map (k, ·)

/-- The history after a call. -/
def record (h : List (String × α)) : Call α → List (String × α)
  | .insert k v => h ++ [(k, v)]
  | .extend pairs => h ++ pairs
  | .collect _ pairs => pairs
  | .ofVector pairs => pairs.toList
  | _ => h

/-- The history after calls. -/
def history (h : List (String × α)) (calls : List (Call α)) : List (String × α) :=
  calls.foldl record h

/-- What a history says that a call answers. -/
def answer (h : List (String × α)) : Call α → Answer α
  | .insert k _ => .value (lastValue? h k)
  | .get k => .value (lastValue? h k)
  | .contains k => .truth (decide (k ∈ (association h).map (·.1)))
  | .size => .count (association h).length
  | .isEmpty => .truth (decide (association h = []))
  | .keys => .keys ((association h).map (·.1))
  | .values => .values ((association h).map (·.2))
  | .entries => .entries (association h)
  | .walk steps => .sights <| (List.range steps).map fun i =>
      let left := (association h).length - i
      ((left, some left), (association h)[i]?)
  | _ => .done

/-- What a history says that calls answer. -/
def answers (h : List (String × α)) : List (Call α) → List (Answer α)
  | [] => []
  | c :: cs => answer h c :: answers (record h c) cs

theorem firstKeys_concat (h : List (String × α)) (k : String) (v : α) :
    firstKeys (h ++ [(k, v)]) =
      if k ∈ firstKeys h then firstKeys h else firstKeys h ++ [k] := by
  have hmem : k ∈ firstKeys h ↔ k ∈ h.map (·.1) := List.mem_eraseDups
  have hnew : [k].removeAll (h.map (·.1)) = if k ∈ h.map (·.1) then [] else [k] := by
    by_cases hk : k ∈ h.map (·.1) <;> simp [List.removeAll, hk]
  simp only [hmem]
  rw [firstKeys, List.map_append, List.eraseDups_append, List.map_singleton, hnew]
  split
  · exact List.append_nil _
  · rfl

theorem lastValue?_concat (h : List (String × α)) (k k' : String) (v : α) :
    lastValue? (h ++ [(k, v)]) k' = if k' = k then some v else lastValue? h k' := by
  unfold lastValue?
  rw [List.reverse_append, List.reverse_singleton, List.singleton_append, List.lookup_cons]
  by_cases hk : k' = k
  · subst hk; simp
  · have hk' : (k' == k) = false := beq_eq_false_iff_ne.2 hk
    rw [if_neg hk, hk']

theorem filterMap_lookup {l : List (String × α)} (h : (l.map (·.1)).Nodup) :
    (l.map (·.1)).filterMap (fun k => (l.lookup k).map (k, ·)) = l := by
  induction l with
  | nil => rfl
  | cons e l ih =>
    obtain ⟨k, v⟩ := e
    obtain ⟨hk, hl⟩ := List.nodup_cons.1 h
    have htail : ∀ k' ∈ l.map (·.1),
        (((k, v) :: l).lookup k').map (k', ·) = (l.lookup k').map (k', ·) := by
      intro k' hk'
      have hne : (k' == k) = false := beq_eq_false_iff_ne.2 fun e => hk (e ▸ hk')
      rw [List.lookup_cons, hne]
    have hhead : (((k, v) :: l).lookup k).map (k, ·) = some (k, v) := by
      rw [List.lookup_cons_self]; rfl
    show List.filterMap (fun k' => (((k, v) :: l).lookup k').map (k', ·)) (k :: l.map (·.1)) = _
    rw [List.filterMap_cons, hhead, List.filterMap_congr htail, ih hl]

/-! ## A map and its history -/

/-- The map holds what its history says: every key once, where it first occurs,
    with the last value. -/
structure Describes (h : List (String × α)) (m : OrderedMap α) : Prop where
  distinct : m.DistinctKeys
  keys : m.keys = firstKeys h
  get? : ∀ k, m.get? k = lastValue? h k

theorem describes_withCapacity (room : Nat) : Describes [] (withCapacity room : OrderedMap α) :=
  ⟨distinctKeys_empty, rfl, fun _ => rfl⟩

namespace Describes

variable {h : List (String × α)} {m : OrderedMap α}

theorem entries_eq (hm : Describes h m) : m.entries = association h := by
  have hlookup : (fun k => (m.entries.lookup k).map (k, ·)) =
      fun k => (lastValue? h k).map (k, ·) := by
    funext k
    rw [← hm.get? k, OrderedMap.get?]
  have hentries := filterMap_lookup hm.distinct
  rw [hlookup, ← OrderedMap.keys, hm.keys] at hentries
  exact hentries.symm

theorem eq {m' : OrderedMap α} (hm : Describes h m) (hm' : Describes h m') : m = m' :=
  congrArg OrderedMap.mk (hm.entries_eq.trans hm'.entries_eq.symm)

theorem insert (hm : Describes h m) (k : String) (v : α) :
    Describes (h ++ [(k, v)]) (m.insert k v) where
  distinct := hm.distinct.insert k v
  keys := by rw [keys_insert, hm.keys, firstKeys_concat]
  get? k' := by rw [get?_insert, hm.get?, lastValue?_concat]

theorem extend (hm : Describes h m) (pairs : List (String × α)) :
    Describes (h ++ pairs) (m.extend pairs) := by
  induction pairs generalizing h m with
  | nil => rw [List.append_nil]; exact hm
  | cons p pairs ih =>
    rw [List.append_cons]
    exact ih (hm.insert p.1 p.2)

end Describes

theorem describes_extend_withCapacity (room : Nat) (pairs : List (String × α)) :
    Describes pairs ((withCapacity room).extend pairs) :=
  (describes_withCapacity room).extend pairs

theorem contains_eq (m : OrderedMap α) (k : String) : m.contains k = decide (k ∈ m.keys) := by
  rw [Bool.eq_iff_iff, decide_eq_true_iff]
  simp [contains, keys]

theorem isEmpty_eq (m : OrderedMap α) : m.isEmpty = decide (m.entries = []) := by
  unfold isEmpty
  cases m.entries <;> rfl

/-- A walk shows the entries one by one, and before each how many are left; once
    none is left, it shows nothing. -/
theorem Cursor.sights_eq (c : Cursor α) (n : Nat) :
    c.sights n = (List.range n).map fun i =>
      ((c.left.length - i, some (c.left.length - i)), c.left[i]?) := by
  induction n generalizing c with
  | zero => rfl
  | succ n ih =>
    have hfirst : c.left.head? = c.left[0]? := List.head?_eq_getElem?
    have hrest : ∀ i, c.left.tail.length - i = c.left.length - (i + 1) ∧
        c.left.tail[i]? = c.left[i + 1]? := by
      intro i
      rw [List.length_tail, List.getElem?_tail]
      exact ⟨by omega, rfl⟩
    rw [Cursor.sights, ih, List.range_succ_eq_map, List.map_cons, List.map_map]
    simp only [Cursor.hint, Cursor.remaining, Cursor.next, hfirst, Function.comp_def, hrest,
      Nat.sub_zero]

/-! ## Runs -/

/-- One call: the answer is what the history says, and the history after the call
    describes the map after it. -/
theorem Describes.step {h : List (String × α)} {m : OrderedMap α} (hm : Describes h m)
    (c : Call α) : (m.step c).1 = answer h c ∧ Describes (record h c) (m.step c).2 := by
  have hkeys : m.keys = (association h).map (·.1) := by rw [OrderedMap.keys, hm.entries_eq]
  cases c with
  | insert k v =>
    refine ⟨?_, hm.insert k v⟩
    show Answer.value (m.getThenInsert? k v).1 = _
    rw [getThenInsert?_fst, hm.get?]
    rfl
  | extend pairs => exact ⟨rfl, hm.extend pairs⟩
  | collect expected pairs => exact ⟨rfl, describes_extend_withCapacity expected pairs⟩
  | ofVector pairs => exact ⟨rfl, describes_extend_withCapacity _ pairs.toList⟩
  | get k => exact ⟨congrArg Answer.value (hm.get? k), hm⟩
  | contains k =>
    refine ⟨?_, hm⟩
    rw [OrderedMap.step, contains_eq, hkeys]
    rfl
  | size =>
    refine ⟨?_, hm⟩
    rw [OrderedMap.step, OrderedMap.size, hm.entries_eq]
    rfl
  | isEmpty =>
    refine ⟨?_, hm⟩
    rw [OrderedMap.step, isEmpty_eq, hm.entries_eq]
    rfl
  | keys => exact ⟨congrArg Answer.keys hkeys, hm⟩
  | values =>
    refine ⟨?_, hm⟩
    rw [OrderedMap.step, OrderedMap.values, hm.entries_eq]
    rfl
  | entries => exact ⟨congrArg Answer.entries hm.entries_eq, hm⟩
  | walk steps =>
    refine ⟨?_, hm⟩
    rw [OrderedMap.step, Cursor.sights_eq, cursor, hm.entries_eq]
    rfl

theorem Describes.run {h : List (String × α)} {m : OrderedMap α} (hm : Describes h m)
    (calls : List (Call α)) :
    (m.run calls).1 = answers h calls ∧ Describes (history h calls) (m.run calls).2 := by
  induction calls generalizing h m with
  | nil => exact ⟨rfl, hm⟩
  | cons c calls ih =>
    obtain ⟨hanswer, hnext⟩ := hm.step c
    obtain ⟨hanswers, hlast⟩ := ih hnext
    refine ⟨?_, hlast⟩
    show (m.step c).1 :: ((m.step c).2.run calls).1 = _
    rw [hanswer, hanswers]
    rfl

theorem history_insertions (h pairs : List (String × α)) :
    history h (insertions pairs) = h ++ pairs := by
  induction pairs generalizing h with
  | nil => exact (List.append_nil h).symm
  | cons p pairs ih =>
    rw [List.append_cons]
    exact ih (h ++ [p])

theorem history_extends (h : List (String × α)) (chunks : List (List (String × α))) :
    history h (chunks.map .extend) = h ++ chunks.flatten := by
  induction chunks generalizing h with
  | nil => exact (List.append_nil h).symm
  | cons pairs chunks ih =>
    rw [List.flatten_cons, ← List.append_assoc]
    exact ih (h ++ pairs)

/-- **A map is the association list of its history.**  Start from an empty map
    with any room and make any calls.

    Every call answers what the history before it says.  At the end the keys are
    distinct and stand in the order of their first occurrences, every key has its
    last value, and the entries are the association list of the history.

    From there, pairs give the same map one by one, at once or in chunks; and a
    new map of them is the same for all constructors. -/
theorem run_withCapacity (room : Nat) (calls : List (Call α)) :
    let h := history [] calls
    let r := (withCapacity room).run calls
    r.1 = answers [] calls ∧
    (r.2.keys.Nodup ∧ r.2.keys = firstKeys h ∧ (∀ k, r.2.get? k = lastValue? h k) ∧
      r.2.entries = association h) ∧
    (∀ chunks : List (List (String × α)),
      (r.2.run (chunks.map .extend)).2 = r.2.extend chunks.flatten ∧
      (r.2.run (insertions chunks.flatten)).2 = r.2.extend chunks.flatten) ∧
    ∀ (expected n : Nat) (pairs : Vector (String × α) n),
      (r.2.step (.collect expected pairs.toList)).2 = (withCapacity room).extend pairs.toList ∧
      (r.2.step (.ofVector pairs)).2 = (withCapacity room).extend pairs.toList ∧
      ((withCapacity room).run (insertions pairs.toList)).2 =
        (withCapacity room).extend pairs.toList := by
  intro h r
  have hempty : Describes [] (withCapacity room : OrderedMap α) := describes_withCapacity room
  obtain ⟨hanswers, hm⟩ := hempty.run calls
  refine ⟨hanswers, ⟨hm.distinct, hm.keys, hm.get?, hm.entries_eq⟩, ?_, ?_⟩
  · intro chunks
    have hwhole := hm.extend chunks.flatten
    constructor
    · have hchunks := (hm.run (chunks.map .extend)).2
      rw [history_extends] at hchunks
      exact hchunks.eq hwhole
    · have hpairs := (hm.run (insertions chunks.flatten)).2
      rw [history_insertions] at hpairs
      exact hpairs.eq hwhole
  · intro expected n pairs
    have hnew := describes_extend_withCapacity room pairs.toList
    refine ⟨?_, ?_, ?_⟩
    · exact (hm.step (.collect expected pairs.toList)).2.eq hnew
    · exact (hm.step (.ofVector pairs)).2.eq hnew
    · have hpairs := (hempty.run (insertions pairs.toList)).2
      rw [history_insertions, List.nil_append] at hpairs
      exact hpairs.eq hnew

end OrderedMap

end ScriptLiteral
