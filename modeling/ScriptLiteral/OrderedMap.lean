/-
  Script literals — maps in insertion order.

  A map from texts is its list of entries in the order in which the keys were
  first inserted.  Inserting under a key that is present replaces the value
  where it stands; any other key is appended.

  * `OrderedMap.insert` inserts and `OrderedMap.getThenInsert?` also returns the
    value that the key had; `extend` and `ofList` insert a list of pairs in
    order, and so do `collect` and `ofVector`, which expect a number of pairs;
  * `Cursor` walks over the entries and knows how many are left;
  * `keys_insert` and `get?_insert` are the laws of insertion, and
    `DistinctKeys` is what it keeps (`DistinctKeys.insert`).

  A map is indexed, a list in disguise, if its keys read `0, 1, 2, …` in order.
  Only canonical decimal digits are read as a number.

  * `index? key` is the number that a key denotes, and `positionKey i` the key of
    the position `i`; `index?_eq_some_iff` says that each number is denoted by one
    text only;
  * `isIndexed` compares the number of each key with its position, and
    `isIndexed_iff` says that these maps have the keys of the positions from zero
    on, in order.
-/
import ScriptLiteral.Digits

namespace ScriptLiteral

/-- A map from texts to values, in the order of first insertion. -/
structure OrderedMap (α : Type) where
  entries : List (String × α)

namespace OrderedMap

variable {α : Type}

/-! ## Access -/

/-- The map without entries. -/
def empty : OrderedMap α := ⟨[]⟩

/-- The map without entries that has room for some.  The room shows nowhere. -/
def withCapacity (_room : Nat) : OrderedMap α := empty

/-- The keys, in order. -/
def keys (m : OrderedMap α) : List String := m.entries.map (·.1)

/-- The values, in the order of their keys. -/
def values (m : OrderedMap α) : List α := m.entries.map (·.2)

/-- The number of entries. -/
def size (m : OrderedMap α) : Nat := m.entries.length

/-- Whether there is no entry. -/
def isEmpty (m : OrderedMap α) : Bool := m.entries.isEmpty

theorem length_keys (m : OrderedMap α) : m.keys.length = m.size := List.length_map ..

/-- The value of a key. -/
def get? (m : OrderedMap α) (k : String) : Option α := m.entries.lookup k

/-- Whether a key is present. -/
def contains (m : OrderedMap α) (k : String) : Bool := m.entries.any (·.1 == k)

/-- No key occurs twice. -/
def DistinctKeys (m : OrderedMap α) : Prop := m.keys.Nodup

/-! ## Insertion -/

/-- Set the value of a key in a list of entries, where the key stands or else at
    the end; also return the value that the key had. -/
def place (k : String) (v : α) : List (String × α) → Option α × List (String × α)
  | [] => (none, [(k, v)])
  | (k', v') :: rest =>
    if k' = k then (some v', (k, v) :: rest) else
      let (old, rest') := place k v rest
      (old, (k', v') :: rest')

/-- Insert an entry and return the value that the key had before. -/
def getThenInsert? (m : OrderedMap α) (k : String) (v : α) : Option α × OrderedMap α :=
  let (old, entries) := place k v m.entries
  (old, ⟨entries⟩)

/-- Insert an entry: in place of the old value of its key, or else at the end. -/
def insert (m : OrderedMap α) (k : String) (v : α) : OrderedMap α :=
  (m.getThenInsert? k v).2

/-- Insert pairs one after the other. -/
def extend (m : OrderedMap α) (pairs : List (String × α)) : OrderedMap α :=
  pairs.foldl (fun m (k, v) => m.insert k v) m

/-- The map of a list of pairs: of a repeated key, the first position and the
    last value. -/
def ofList (pairs : List (String × α)) : OrderedMap α := empty.extend pairs

/-- The map of pairs of which at least some number are expected. -/
def collect (expected : Nat) (pairs : List (String × α)) : OrderedMap α :=
  (withCapacity expected).extend pairs

/-- The map of pairs of known number. -/
def ofVector {n : Nat} (pairs : Vector (String × α) n) : OrderedMap α := collect n pairs.toList

/-- The map with one entry. -/
def singleton (k : String) (v : α) : OrderedMap α := empty.insert k v

/-! ## Laws of insertion -/

theorem place_fst (k : String) (v : α) (l : List (String × α)) :
    (place k v l).1 = l.lookup k := by
  induction l with
  | nil => rfl
  | cons e l ih =>
    obtain ⟨k', v'⟩ := e
    by_cases h : k' = k
    · subst h; simp [place]
    · have h' : (k == k') = false := by simp [Ne.symm h]
      simp [place, List.lookup_cons, h, h', ih]

theorem keys_place (k : String) (v : α) (l : List (String × α)) :
    (place k v l).2.map (·.1) =
      if k ∈ l.map (·.1) then l.map (·.1) else l.map (·.1) ++ [k] := by
  induction l with
  | nil => rfl
  | cons e l ih =>
    obtain ⟨k', v'⟩ := e
    by_cases h : k' = k
    · subst h; simp [place]
    · simp only [place, h, if_false, List.map_cons, ih, List.mem_cons, Ne.symm h, false_or]
      split <;> rfl

theorem lookup_place (k k' : String) (v : α) (l : List (String × α)) :
    (place k v l).2.lookup k' = if k' = k then some v else l.lookup k' := by
  induction l with
  | nil =>
    by_cases h : k' = k
    · simp [place, h]
    · have h' : (k' == k) = false := by simp [h]
      simp [place, List.lookup_cons, h, h']
  | cons e l ih =>
    obtain ⟨k₀, v₀⟩ := e
    by_cases h₀ : k₀ = k
    · subst h₀
      by_cases h : k' = k₀
      · simp [place, h]
      · have h' : (k' == k₀) = false := by simp [h]
        simp [place, List.lookup_cons, h, h']
    · simp only [place, h₀, if_false, List.lookup_cons, ih]
      by_cases h : k' = k₀
      · subst h; simp [h₀]
      · have h' : (k' == k₀) = false := by simp [h]
        simp [h']

@[simp] theorem getThenInsert?_fst (m : OrderedMap α) (k : String) (v : α) :
    (m.getThenInsert? k v).1 = m.get? k :=
  place_fst k v m.entries

/-- A key that is present keeps its position, a new one comes last. -/
theorem keys_insert (m : OrderedMap α) (k : String) (v : α) :
    (m.insert k v).keys = if k ∈ m.keys then m.keys else m.keys ++ [k] :=
  keys_place k v m.entries

theorem get?_insert (m : OrderedMap α) (k k' : String) (v : α) :
    (m.insert k v).get? k' = if k' = k then some v else m.get? k' :=
  lookup_place k k' v m.entries

theorem DistinctKeys.insert {m : OrderedMap α} (h : m.DistinctKeys) (k : String) (v : α) :
    (m.insert k v).DistinctKeys := by
  unfold DistinctKeys at *
  rw [keys_insert]
  split
  · exact h
  · next hk =>
    refine List.nodup_append.2 ⟨h, by simp, fun a ha b hb => ?_⟩
    obtain rfl := List.mem_singleton.1 hb
    exact fun e => hk (e ▸ ha)

theorem distinctKeys_empty : (empty : OrderedMap α).DistinctKeys := List.nodup_nil

theorem DistinctKeys.extend {m : OrderedMap α} (h : m.DistinctKeys) (pairs : List (String × α)) :
    (m.extend pairs).DistinctKeys := by
  induction pairs generalizing m with
  | nil => exact h
  | cons e pairs ih => exact ih (h.insert e.1 e.2)

@[simp] theorem extend_cons (m : OrderedMap α) (k : String) (v : α) (pairs : List (String × α)) :
    m.extend ((k, v) :: pairs) = (m.insert k v).extend pairs := rfl

theorem extend_append (m : OrderedMap α) (l₁ l₂ : List (String × α)) :
    m.extend (l₁ ++ l₂) = (m.extend l₁).extend l₂ :=
  List.foldl_append

/-! ## Iteration -/

/-- A walk over the entries of a map: what is still to come. -/
structure Cursor (α : Type) where
  left : List (String × α)

/-- A walk from the first entry on. -/
def cursor (m : OrderedMap α) : Cursor α := ⟨m.entries⟩

namespace Cursor

/-- The number of entries still to come. -/
def remaining (c : Cursor α) : Nat := c.left.length

/-- The least and the greatest number of entries that may be still to come. -/
def hint (c : Cursor α) : Nat × Option Nat := (c.remaining, some c.remaining)

/-- The next entry, if one is left, and the walk after it. -/
def next (c : Cursor α) : Option (String × α) × Cursor α := (c.left.head?, ⟨c.left.tail⟩)

end Cursor

end OrderedMap

/-! ## Keys that denote positions -/

/-- The number whose canonical decimal digits are the key, if it is one. -/
def index? (key : String) : Option Nat :=
  if CanonicalDigits key.toList then some (Nat.ofDigitChars 10 key.toList 0) else none

/-- A key denotes a number iff it is the number's digits. -/
theorem index?_eq_some_iff {key : String} {n : Nat} :
    index? key = some n ↔ key.toList = Nat.toDigits 10 n := by
  unfold index?
  constructor
  · intro h
    split at h
    · next hc => rw [← Option.some.inj h, toDigits_ofDigitChars hc]
    · nomatch h
  · intro h
    rw [h, if_pos (canonicalDigits_toDigits n), Nat.ofDigitChars_ten_toDigits]

/-- The key of a position. -/
def positionKey (i : Nat) : String := String.ofList (Nat.toDigits 10 i)

theorem index?_eq_some_iff_positionKey {key : String} {n : Nat} :
    index? key = some n ↔ key = positionKey n := by
  rw [index?_eq_some_iff, positionKey, ← String.toList_inj, String.toList_ofList]

namespace OrderedMap

variable {α : Type}

/-- The keys denote `n`, `n + 1`, `n + 2`, and so on. -/
def countsFrom : Nat → List String → Bool
  | _, [] => true
  | n, key :: keys => index? key == some n && countsFrom (n + 1) keys

/-- Whether the keys are the numbers from zero on, in order.  The empty map is
    indexed. -/
def isIndexed (m : OrderedMap α) : Bool := countsFrom 0 m.keys

theorem countsFrom_append (n : Nat) (l₁ l₂ : List String) :
    countsFrom n (l₁ ++ l₂) = (countsFrom n l₁ && countsFrom (n + l₁.length) l₂) := by
  induction l₁ generalizing n with
  | nil => rfl
  | cons k l₁ ih =>
    simp only [List.cons_append, countsFrom, ih, Bool.and_assoc, List.length_cons]
    rw [Nat.add_right_comm, Nat.add_assoc]

theorem countsFrom_iff {n : Nat} {keys : List String} :
    countsFrom n keys = true ↔ keys = (List.range' n keys.length).map positionKey := by
  induction keys generalizing n with
  | nil => simp [countsFrom]
  | cons key keys ih =>
    rw [countsFrom, Bool.and_eq_true, beq_iff_eq, index?_eq_some_iff_positionKey, ih,
      List.length_cons, List.range'_succ, List.map_cons, List.cons.injEq]

/-- **A map is indexed iff its keys are the positions of its entries.** -/
theorem isIndexed_iff {m : OrderedMap α} :
    m.isIndexed = true ↔ m.keys = (List.range m.size).map positionKey := by
  rw [isIndexed, countsFrom_iff, length_keys, List.range_eq_range']

end OrderedMap

end ScriptLiteral
