/-
  Script literals — a map under construction is its history of keys and values.

  A map is told keys and values in any order.  What it holds in the end can be read
  off the history of what it was told, without any builder: one pair for each value,
  with the key that was told last.

  * `Told` is what a builder can be told, `MapBuilder.tell` what it does, and
    `Tells calls told` what calls tell whose data convert;
  * `lastKey?`, `Keyed` and `pairs` read a history;
  * `Recounts`: the invariant that ties a builder to its history (`Recounts.tell`,
    `Recounts.tellAll`);
  * `toValue_map_of_tells`: calls fail iff a value has no key, and else give the map
    of the pairs; keys without a value leave no trace.
-/
import Mathlib
import ScriptLiteral.Datum.Convert
import ScriptLiteral.Proofs.MapHistory

namespace ScriptLiteral

/-! ## Histories -/

/-- What a builder is told: the text of a key, or a value. -/
inductive Told where
  | key (k : String)
  | value (v : Value)

namespace Told

/-- The text, if this is a key. -/
def key? : Told → Option String
  | key k => some k
  | value _ => none

/-- The value, if this is one. -/
def value? : Told → Option Value
  | key _ => none
  | value v => some v

end Told

/-- The key that was told last. -/
def lastKey? (told : List Told) : Option String := (told.filterMap Told.key?).getLast?

/-- A key was told, and since then no value. -/
def Keyed (told : List Told) : Prop :=
  ∃ before k since, told = before ++ .key k :: since ∧ since.filterMap Told.value? = []

/-- Some value was told without a key: there was none since the value before it, or since
    the start. -/
def HasKeylessValue (told : List Told) : Prop :=
  ∃ done v later, told = done ++ .value v :: later ∧ ¬ Keyed done

/-- The pair of the value at a position: with the key that was told last. -/
def pairAt? (told : List Told) (i : Nat) : Option (String × Value) :=
  (told[i]?.bind Told.value?).bind fun v => (lastKey? (told.take i)).map (·, v)

/-- The pairs of a history, in order. -/
def pairs (told : List Told) : List (String × Value) :=
  (List.range told.length).filterMap (pairAt? told)

theorem lastKey?_concat_key (told : List Told) (k : String) :
    lastKey? (told ++ [.key k]) = some k := by
  rw [lastKey?, List.filterMap_append]
  exact List.getLast?_concat

theorem keyed_concat_key (told : List Told) (k : String) : Keyed (told ++ [.key k]) :=
  ⟨told, k, [], rfl, rfl⟩

theorem not_keyed_nil : ¬ Keyed [] := by
  rintro ⟨before, k, since, h, -⟩
  exact List.append_ne_nil_of_right_ne_nil _ (List.cons_ne_nil _ _) h.symm

theorem not_keyed_concat_value (told : List Told) (v : Value) :
    ¬ Keyed (told ++ [.value v]) := by
  rintro ⟨before, k, since, h, hsince⟩
  have hlast : (before ++ .key k :: since).getLast? = some (.value v) := by
    rw [← h, List.getLast?_concat]
  rw [List.getLast?_append_cons] at hlast
  rcases List.mem_cons.1 (List.mem_of_getLast? hlast) with heq | hmem
  · nomatch heq
  · have hv : v ∈ since.filterMap Told.value? := List.mem_filterMap.2 ⟨_, hmem, rfl⟩
    rw [hsince] at hv
    nomatch hv

theorem pairs_concat (told : List Told) (t : Told) :
    pairs (told ++ [t]) =
      pairs told ++ (t.value?.bind fun v => (lastKey? told).map (·, v)).toList := by
  -- what stands at a position depends on the history up to there
  have hfront : ∀ i ∈ List.range told.length, pairAt? (told ++ [t]) i = pairAt? told i := by
    intro i hi
    have hlt := List.mem_range.1 hi
    rw [pairAt?, pairAt?, List.getElem?_append_left hlt, List.take_append_of_le_length hlt.le]
  have hlast : pairAt? (told ++ [t]) told.length =
      t.value?.bind fun v => (lastKey? told).map (·, v) := by
    rw [pairAt?, List.getElem?_concat_length, List.take_left]
    rfl
  rw [pairs, List.length_append, List.length_singleton, List.range_succ, List.filterMap_append,
    List.filterMap_congr hfront, ← pairs]
  congr 1
  rw [← hlast]
  cases h : pairAt? (told ++ [t]) told.length <;> simp [h]

/-! ## A builder and its history -/

namespace MapBuilder

/-- Tell a builder a key or a value. -/
def tell (b : MapBuilder) : Told → Except DatumFault MapBuilder
  | .key k => .ok { b with pending := some k }
  | .value v => do
    let (k, b) ← b.takeKey
    return b.insert k v

/-- Tell a builder one thing after the other. -/
def tellAll (b : MapBuilder) (told : List Told) : Except DatumFault MapBuilder := told.foldlM tell b

/-- The builder holds what its history says: the map of the pairs, one for each value,
    and the key that has no value yet. -/
structure Recounts (told : List Told) (b : MapBuilder) : Prop where
  entries : b.entries = .ofList (pairs told)
  values : (pairs told).map (·.2) = told.filterMap Told.value?
  keyed_iff : Keyed told ↔ b.pending ≠ none
  lastKey? : ∀ k, b.pending = some k → lastKey? told = some k

theorem recounts_empty : Recounts [] empty where
  entries := rfl
  values := rfl
  keyed_iff := ⟨fun h => absurd h not_keyed_nil, fun h => absurd rfl h⟩
  lastKey? _ h := nomatch h

variable {told : List Told} {b : MapBuilder}

theorem Recounts.key (h : Recounts told b) (k : String) :
    Recounts (told ++ [.key k]) { b with pending := some k } where
  entries := by rw [h.entries, pairs_concat]; simp [Told.value?]
  values := by rw [pairs_concat, List.filterMap_append, ← h.values]; simp [Told.value?]
  keyed_iff := ⟨fun _ => nofun, fun _ => keyed_concat_key told k⟩
  lastKey? k' hk' := by
    cases hk'
    exact lastKey?_concat_key told k

theorem Recounts.value (h : Recounts told b) {k : String} (hk : b.pending = some k) (v : Value) :
    Recounts (told ++ [.value v]) ⟨b.entries.insert k v, none⟩ := by
  have hpairs : pairs (told ++ [.value v]) = pairs told ++ [(k, v)] := by
    rw [pairs_concat, h.lastKey? k hk]
    rfl
  refine ⟨?_, ?_, ?_, nofun⟩
  · rw [hpairs, OrderedMap.ofList, OrderedMap.extend_append, ← OrderedMap.ofList, ← h.entries]
    rfl
  · rw [hpairs, List.map_append, h.values, List.filterMap_append]
    rfl
  · exact ⟨fun hkeyed => absurd hkeyed (not_keyed_concat_value told v), fun hne => absurd rfl hne⟩

/-- One thing told: the history goes on with it, unless it is a value without key. -/
theorem Recounts.tell (h : Recounts told b) (t : Told) :
    (∃ b', b.tell t = .ok b' ∧ Recounts (told ++ [t]) b' ∧ (t.value? ≠ none → Keyed told)) ∨
      (b.tell t = .error .valueBeforeKey ∧ t.value? ≠ none ∧ ¬ Keyed told) := by
  cases t with
  | key k => exact .inl ⟨_, rfl, h.key k, fun hne => absurd rfl hne⟩
  | value v =>
    cases hpending : b.pending with
    | some k =>
      refine .inl ⟨_, ?_, h.value hpending v, fun _ => h.keyed_iff.2 (by rw [hpending]; nofun)⟩
      rw [MapBuilder.tell, takeKey, hpending]
      rfl
    | none =>
      refine .inr ⟨?_, nofun, fun hkeyed => h.keyed_iff.1 hkeyed hpending⟩
      rw [MapBuilder.tell, takeKey, hpending]
      rfl

theorem Recounts.tellAll (h : Recounts told b) (more : List Told) :
    (∃ b', b.tellAll more = .ok b' ∧ Recounts (told ++ more) b' ∧
      ∀ done v later, more = done ++ .value v :: later → Keyed (told ++ done)) ∨
    (b.tellAll more = .error .valueBeforeKey ∧
      ∃ done v later, more = done ++ .value v :: later ∧ ¬ Keyed (told ++ done)) := by
  induction more generalizing told b with
  | nil =>
    refine .inl ⟨b, rfl, by rwa [List.append_nil], fun done v later heq => ?_⟩
    exact absurd heq.symm (List.append_ne_nil_of_right_ne_nil _ (List.cons_ne_nil _ _))
  | cons t more ih =>
    rcases h.tell t with ⟨b₁, htell, h₁, hkeyed⟩ | ⟨htell, hvalue, hkeyless⟩
    · have hrun : b.tellAll (t :: more) = b₁.tellAll more := by
        rw [MapBuilder.tellAll, List.foldlM_cons, htell]
        rfl
      rw [hrun]
      rcases ih h₁ with ⟨b', hall, h', hrest⟩ | ⟨hall, done, v, later, rfl, hkeyless⟩
      · refine .inl ⟨b', hall, by rwa [List.append_cons], fun done v later heq => ?_⟩
        cases done with
        | nil =>
          obtain ⟨rfl, -⟩ := List.cons.inj heq
          rw [List.append_nil]
          exact hkeyed nofun
        | cons t' done =>
          obtain ⟨rfl, htail⟩ := List.cons.inj heq
          rw [List.append_cons]
          exact hrest done v later htail
      · refine .inr ⟨hall, t :: done, v, later, rfl, ?_⟩
        rwa [List.append_cons]
    · refine .inr ⟨?_, [], ?_⟩
      · rw [MapBuilder.tellAll, List.foldlM_cons, htell]
        rfl
      · cases t with
        | key k => exact absurd rfl hvalue
        | value v => exact ⟨v, more, rfl, by rwa [List.append_nil]⟩

end MapBuilder

/-! ## Calls -/

namespace Datum

/-- The datum is a key with this text. -/
def IsKey (d : Datum) (k : String) : Prop := ∃ v, d.toValue = .ok v ∧ keyText v = .ok k

/-- The calls, whose data all convert, tell these keys and values; an entry tells a key
    and then a value. -/
inductive Tells : List (MapCall Datum) → List Told → Prop where
  | nil : Tells [] []
  | key {d : Datum} {k : String} {rest : List (MapCall Datum)} {told : List Told}
      (hk : d.IsKey k) (h : Tells rest told) : Tells (.key d :: rest) (.key k :: told)
  | value {d : Datum} {v : Value} {rest : List (MapCall Datum)} {told : List Told}
      (hv : d.toValue = .ok v) (h : Tells rest told) : Tells (.value d :: rest) (.value v :: told)
  | entry {d e : Datum} {k : String} {v : Value} {rest : List (MapCall Datum)} {told : List Told}
      (hk : d.IsKey k) (hv : e.toValue = .ok v) (h : Tells rest told) :
      Tells (.entry d e :: rest) (.key k :: .value v :: told)

theorem IsKey.runCalls_cons {d : Datum} {k : String} (h : d.IsKey k) (b : MapBuilder)
    (rest : List (MapCall Datum)) :
    runCalls b (.key d :: rest) = runCalls { b with pending := some k } rest := by
  obtain ⟨v, hv, hk⟩ := h
  rw [runCalls, hv]
  show (b.setKey v >>= fun b => runCalls b rest) = _
  rw [MapBuilder.setKey, hk]
  rfl

theorem runCalls_value_cons {d : Datum} {v : Value} (hv : d.toValue = .ok v) (b : MapBuilder)
    (rest : List (MapCall Datum)) :
    runCalls b (.value d :: rest) = b.tell (.value v) >>= fun b => runCalls b rest := by
  rw [runCalls, hv, MapBuilder.tell]
  cases b.takeKey <;> rfl

theorem Tells.runCalls_eq {calls : List (MapCall Datum)} {told : List Told} (h : Tells calls told)
    (b : MapBuilder) : runCalls b calls = b.tellAll told := by
  induction h generalizing b with
  | nil => rw [runCalls]; rfl
  | key hk _ ih =>
    rw [hk.runCalls_cons, ih]
    rfl
  | value hv _ ih =>
    simp only [runCalls_value_cons hv, ih]
    rfl
  | entry hk hv _ ih =>
    simp only [runCalls_entry_cons, hk.runCalls_cons, runCalls_value_cons hv, ih]
    rfl

theorem Tells.isKey_of_mem {calls : List (MapCall Datum)} {told : List Told}
    (h : Tells calls told) {d : Datum} (hd : .key d ∈ calls) : ∃ k, d.IsKey k := by
  induction h with
  | nil => nomatch hd
  | key hk _ ih =>
    rcases List.mem_cons.1 hd with heq | hd
    · cases heq
      exact ⟨_, hk⟩
    · exact ih hd
  | value _ _ ih =>
    rcases List.mem_cons.1 hd with heq | hd
    · nomatch heq
    · exact ih hd
  | entry _ _ _ ih =>
    rcases List.mem_cons.1 hd with heq | hd
    · nomatch heq
    · exact ih hd

theorem runCalls_forget {calls : List (MapCall Datum)} (h : ∀ d, calls.head? ≠ some (.value d))
    (entries : OrderedMap Value) (p q : Option String) :
    (runCalls ⟨entries, p⟩ calls).map (·.entries) =
      (runCalls ⟨entries, q⟩ calls).map (·.entries) := by
  cases calls with
  | nil => rw [runCalls, runCalls]; rfl
  | cons c rest =>
    have hset : ∀ v, MapBuilder.setKey ⟨entries, p⟩ v = MapBuilder.setKey ⟨entries, q⟩ v :=
      fun _ => rfl
    cases c with
    | key d => simp only [runCalls, hset]
    | value d => exact absurd rfl (h d)
    | entry d e => simp only [runCalls, hset]

theorem toValue_map (calls : List (MapCall Datum)) :
    (Datum.map calls).toValue = ((runCalls .empty calls).map (·.entries)).map .map := by
  rw [toValue]
  cases runCalls .empty calls <;> rfl

/-- A key without a value, because another key or the end follows, leaves no trace. -/
theorem toValue_map_without_key {before after : List (MapCall Datum)} {d : Datum} {k : String}
    (hd : d.IsKey k) (hafter : ∀ e, after.head? ≠ some (.value e)) :
    (Datum.map (before ++ .key d :: after)).toValue = (Datum.map (before ++ after)).toValue := by
  rw [toValue_map, toValue_map, runCalls_append, runCalls_append]
  cases runCalls .empty before with
  | error f => rfl
  | ok b =>
    show ((runCalls b (.key d :: after)).map _).map _ = _
    rw [hd.runCalls_cons, runCalls_forget hafter b.entries (some k) b.pending]
    rfl

theorem Tells.toValue_cases {calls : List (MapCall Datum)} {told : List Told}
    (h : Tells calls told) :
    ((Datum.map calls).toValue = .ok (.map (.ofList (pairs told))) ∧
      (pairs told).map (·.2) = told.filterMap Told.value? ∧ ¬ HasKeylessValue told) ∨
    ((Datum.map calls).toValue = .error .valueBeforeKey ∧ HasKeylessValue told) := by
  rw [toValue_map, h.runCalls_eq]
  rcases MapBuilder.recounts_empty.tellAll told with ⟨b, hb, hrecounts, hkeyed⟩ | ⟨hb, hkeyless⟩
  · rw [hb]
    refine .inl ⟨?_, hrecounts.values, ?_⟩
    · show Except.ok (Value.map b.entries) = _
      rw [hrecounts.entries]
      rfl
    · rintro ⟨done, v, later, htold, hkeyless⟩
      exact hkeyless (hkeyed done v later htold)
  · rw [hb]
    exact .inr ⟨rfl, hkeyless⟩

/-- **The map of calls is the map of their history.**

    Of calls whose data all convert, one fails iff some value has no key: none was told
    since the value before it, or since the start.  Otherwise the value is the map of
    the pairs of the history, inserted in order: one for each value, with the key that
    was told last.  Repeated keys keep the first position and the last value.  A key
    that is followed by another key, or by nothing, might as well not have been
    told. -/
theorem toValue_map_of_tells {calls : List (MapCall Datum)} {told : List Told}
    (h : Tells calls told) :
    (∀ f, (Datum.map calls).toValue = .error f ↔ f = .valueBeforeKey ∧ HasKeylessValue told) ∧
    (∀ x, (Datum.map calls).toValue = .ok x ↔
      x = .map (.ofList (pairs told)) ∧ ¬ HasKeylessValue told) ∧
    (¬ HasKeylessValue told → (pairs told).map (·.2) = told.filterMap Told.value?) ∧
    ((OrderedMap.ofList (pairs told)).keys = OrderedMap.firstKeys (pairs told) ∧
      ∀ k, (OrderedMap.ofList (pairs told)).get? k = OrderedMap.lastValue? (pairs told) k) ∧
    ∀ before d after, calls = before ++ .key d :: after →
      (∀ e, after.head? ≠ some (.value e)) →
        (Datum.map (before ++ after)).toValue = (Datum.map calls).toValue := by
  have hmap : OrderedMap.Describes (pairs told) (.ofList (pairs told)) :=
    OrderedMap.describes_extend_withCapacity 0 (pairs told)
  have hforget : ∀ before d after, calls = before ++ .key d :: after →
      (∀ e, after.head? ≠ some (.value e)) →
        (Datum.map (before ++ after)).toValue = (Datum.map calls).toValue := by
    rintro before d after rfl hafter
    obtain ⟨k, hk⟩ := h.isKey_of_mem (List.mem_append_right _ (List.mem_cons_self ..))
    exact (toValue_map_without_key hk hafter).symm
  refine ⟨fun f => ?_, fun x => ?_, fun hkeyed => ?_, ⟨hmap.keys, hmap.get?⟩, hforget⟩
  all_goals rcases h.toValue_cases with ⟨hok, hvalues, hkeyed⟩ | ⟨herror, hkeyless⟩
  · rw [hok]
    exact ⟨nofun, fun hf => absurd hf.2 hkeyed⟩
  · rw [herror, Except.error.injEq, eq_comm]
    exact ⟨fun hf => ⟨hf, hkeyless⟩, fun hf => hf.1⟩
  · rw [hok, Except.ok.injEq, eq_comm]
    exact ⟨fun hx => ⟨hx, hkeyed⟩, fun hx => hx.1⟩
  · rw [herror]
    exact ⟨nofun, fun hx => absurd hkeyless hx.2⟩
  · exact hvalues
  · exact absurd hkeyless hkeyed

/-- Calls with a key that is overwritten, an integer key and a text key of one text, and
    a key without a value at the end. -/
def unevenCalls : List (MapCall Datum) :=
  [.key (.text "lost"), .key (.integer (.ofUInt8 7)), .value (.bool true),
    .entry (.char 'b') .absent, .entry (.text "7") (.text "again"), .key (.text "last")]

/-- What these calls tell. -/
def unevenTold : List Told :=
  [.key "lost", .key "7", .value (.bool true), .key "b", .value .null, .key "7",
    .value (.string "again"), .key "last"]

theorem toValue_map_of_tells_uneven : Tells unevenCalls unevenTold ∧
    (Datum.map unevenCalls).toValue = .ok (.map ⟨[("7", .string "again"), ("b", .null)]⟩) ∧
      ¬ HasKeylessValue unevenTold ∧
        (Datum.map unevenCalls.tail).toValue = (Datum.map unevenCalls).toValue := by
  have htells : Tells unevenCalls unevenTold :=
    .key ⟨_, rfl, rfl⟩ <| .key ⟨.integer 7, rfl, rfl⟩ <| .value rfl <|
      .entry ⟨_, rfl, rfl⟩ rfl <| .entry ⟨_, rfl, rfl⟩ rfl <| .key ⟨_, rfl, rfl⟩ .nil
  have hvalue : (Datum.map unevenCalls).toValue =
      .ok (.map ⟨[("7", .string "again"), ("b", .null)]⟩) := rfl
  obtain ⟨-, hok, -, -, hforget⟩ := toValue_map_of_tells htells
  exact ⟨htells, hvalue, ((hok _).1 hvalue).2, hforget [] (.text "lost") unevenCalls.tail rfl nofun⟩

end Datum

end ScriptLiteral
