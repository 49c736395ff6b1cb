/-
  Script literals — what is written and reported for a value.

  * `Value.canon` is the term of a value: what its literal says, if it has one;
  * `Writes a vs cs` says what an action does to every draft: it reports the
    visits `vs` up to the first fault among them, and if there is none it appends
    the characters `cs`; it is a property that is kept by sequences of actions
    (`Writes.seq`, `writes_all`);
  * `emit_writes`: writing a value reports its walk and appends its term;
  * `emission_eq` is the same of the outcome as a whole.
-/
import ScriptLiteral.Literal.Emit
import ScriptLiteral.OrderedMap
import ScriptLiteral.Proofs.Term
import ScriptLiteral.Proofs.Walk

namespace ScriptLiteral

namespace Value

/-! ## The term of a value -/

/-- The term of a double: its decimal text, or the name of the number it is. -/
def floatTerm (d : Double) : Term :=
  if d.IsNaN then .nan
  else if d.IsFinite then .number d.decimal.text
  else .infinity d.negative

/-- The term of a map with these entries: the list of its values if its keys are
    the positions of the entries. -/
def mapTerm (keys : List String) (entries : List (String × Term)) : Term :=
  if keys = (List.range keys.length).map positionKey then .list (entries.map (·.2))
  else .record entries

mutual

/-- What the literal of a value says.  A value without literal has no term; null
    stands for it. -/
def canon : Value → Term
  | .null => .null
  | .bool b => .bool b
  | .integer i => .number (Decimal.ofInt i.toInt).text
  | .float d => floatTerm d
  | .string s => .string (foldText s)
  | .list items => .list (itemCanons items)
  | .map ⟨entries⟩ => mapTerm (OrderedMap.mk entries).keys (entryCanons entries)
  | .object { substitute := some v, .. } =>
    match v with
    | .string source => .verbatim source
    | v => canon v
  | .object { exported := some v, .. } => canon v
  | .object { rendered := some source, .. } => .verbatim source
  | .object { instant := some t, .. } => .date (t.totalMicros / 1000)
  | .object _ => .null
  | .resource _ => .null

/-- The terms of items. -/
def itemCanons : List Value → List Term
  | [] => []
  | v :: vs => canon v :: itemCanons vs

/-- The terms of entries under their keys. -/
def entryCanons : List (String × Value) → List (String × Term)
  | [] => []
  | (k, v) :: rest => (foldText k, canon v) :: entryCanons rest

end

theorem itemCanons_eq_map (items : List Value) : itemCanons items = items.map canon := by
  induction items with
  | nil => rfl
  | cons v vs ih => simp only [itemCanons, List.map_cons, ih]

theorem entryCanons_eq_map (entries : List (String × Value)) :
    entryCanons entries = entries.map fun e => (foldText e.1, e.2.canon) := by
  induction entries with
  | nil => rfl
  | cons e rest ih => simp only [entryCanons, List.map_cons, ih]

/-- The term of what an object resolves to. -/
def resolutionCanon : Resolution Value → Term
  | .substitute (.string source) => .verbatim source
  | .substitute v => canon v
  | .exported v => canon v
  | .rendered source => .verbatim source
  | .instant t => .date (t.totalMicros / 1000)

theorem canon_object (o : HostObject Value) :
    canon (.object o) = (o.resolution?.map resolutionCanon).getD .null := by
  cases o using HostObject.firstCases with
  | substitute _ _ _ v => cases v <;> rfl
  | exported | rendered | instant | without => rfl

end Value

namespace Literal

open Emit Term

/-! ## What an action does to a draft -/

/-- The action reports the visits up to the first fault, and fails with that
    fault; without a fault it appends the characters. -/
def Writes (a : Emit Unit) (vs : List Visit) (cs : List Char) : Prop :=
  ∀ d : Draft, ∃ d' : Draft, d'.events.toList = d.events.toList ++ reports vs ∧
    match firstFault vs with
    | none => a.run d = .ok () d' ∧ d'.text.toList = d.text.toList ++ cs
    | some f => a.run d = .error f d'

theorem run_bind_of_ok {a b : Emit Unit} {d d' : Draft} (h : a.run d = .ok () d') :
    (a >>= fun _ => b).run d = b.run d' := by
  show EStateM.bind a _ d = _
  unfold EStateM.bind
  rw [show a d = _ from h]
  rfl

theorem run_bind_of_error {a b : Emit Unit} {d d' : Draft} {f : Fault}
    (h : a.run d = .error f d') : (a >>= fun _ => b).run d = .error f d' := by
  show EStateM.bind a _ d = _
  unfold EStateM.bind
  rw [show a d = _ from h]

theorem writes_pure : Writes (pure ()) [] [] := fun d => ⟨d, by simp [reports], rfl, by simp⟩

theorem writes_put (s : String) : Writes (put s) [] s.toList := fun d =>
  ⟨{ d with text := d.text ++ s }, by simp [reports], rfl, by simp⟩

theorem writes_resolving (typeName : String) (capability : Capability) :
    Writes (report (.resolving typeName capability)) [.resolved typeName capability] [] := fun d =>
  ⟨{ d with events := d.events.push (.resolving typeName capability) },
    by simp [reports, Visit.fault?, Visit.event?], rfl, by simp⟩

theorem writes_throw (f : Fault) (cs : List Char) : Writes (throw f) [.fault f] cs := fun d =>
  ⟨d, by simp [reports, Visit.fault?], rfl⟩

theorem writes_verbatim (source : String) :
    Writes (put source) [.verbatim source] source.toList := fun d =>
  ⟨{ d with text := d.text ++ source }, by simp [reports, Visit.fault?, Visit.event?], rfl, by simp⟩

/-- **One action after another**: visits and characters are appended, and what
    follows a fault is not done. -/
theorem Writes.seq {a b : Emit Unit} {vs ws : List Visit} {cs ds : List Char}
    (ha : Writes a vs cs) (hb : Writes b ws ds) :
    Writes (a >>= fun _ => b) (vs ++ ws) (cs ++ ds) := by
  intro d
  obtain ⟨d₁, he₁, h₁⟩ := ha d
  rw [firstFault_append, reports_append]
  cases hv : firstFault vs with
  | some f =>
    rw [hv] at h₁
    exact ⟨d₁, by simpa using he₁, run_bind_of_error h₁⟩
  | none =>
    rw [hv] at h₁
    obtain ⟨hr₁, ht₁⟩ := h₁
    obtain ⟨d₂, he₂, h₂⟩ := hb d₁
    refine ⟨d₂, by rw [he₂, he₁]; simp, ?_⟩
    rw [Option.none_or, run_bind_of_ok hr₁]
    cases hw : firstFault ws with
    | some f => rw [hw] at h₂; exact h₂
    | none =>
      rw [hw] at h₂
      exact ⟨h₂.1, by rw [h₂.2, ht₁, List.append_assoc]⟩

/-! ## Writing one after another -/

/-- Do the actions with a comma before each, the first excepted unless `more`. -/
def emitAll (more : Bool) : List (Emit Unit) → Emit Unit
  | [] => pure ()
  | a :: as => do
    if more then put ", "
    a
    emitAll true as

/-- Write a key, a colon and a value. -/
def emitEntry (e : String × Value) : Emit Unit := do
  put (key e.1)
  put ": "
  emit e.2

theorem emitItems_eq (more : Bool) (items : List Value) :
    emitItems more items = emitAll more (items.map emit) := by
  induction items generalizing more with
  | nil => rfl
  | cons v vs ih => rw [emitItems, List.map_cons, emitAll, ih]

theorem emitEntries_eq (more : Bool) (entries : List (String × Value)) :
    emitEntries more entries = emitAll more (entries.map emitEntry) := by
  induction entries generalizing more with
  | nil => rfl
  | cons e rest ih =>
    obtain ⟨k, v⟩ := e
    simp only [emitEntries, List.map_cons, emitAll, emitEntry, ih, bind_assoc]

section
variable {α : Type} {write : α → Emit Unit} {visits : α → List Visit} {print : α → List Char}

theorem writes_all_true {as : List α} (h : ∀ a ∈ as, Writes (write a) (visits a) (print a)) :
    Writes (emitAll true (as.map write)) (as.flatMap visits)
      ((as.map print).flatMap ([',', ' '] ++ ·)) := by
  induction as with
  | nil => exact writes_pure
  | cons a as ih =>
    have ha := h a (List.mem_cons_self ..)
    have has := ih fun b hb => h b (List.mem_cons_of_mem _ hb)
    simpa [emitAll] using (writes_put ", ").seq (ha.seq has)

/-- The visits of all actions are met in order, and their characters stand between
    commas. -/
theorem writes_all {as : List α} (h : ∀ a ∈ as, Writes (write a) (visits a) (print a)) :
    Writes (emitAll false (as.map write)) (as.flatMap visits) (separated (as.map print)) := by
  cases as with
  | nil => exact writes_pure
  | cons a as =>
    have ha := h a (List.mem_cons_self ..)
    have has := writes_all_true fun b hb => h b (List.mem_cons_of_mem _ hb)
    rw [List.map_cons, List.map_cons, separated_cons]
    exact ha.seq has

end

/-! ## Writing a value -/

theorem writes_entry {e : String × Value} (h : Writes (emit e.2) e.2.visits e.2.canon.chars) :
    Writes (emitEntry e) e.2.visits (pairChars (foldText e.1, e.2.canon)) := by
  have hk : Writes (put (key e.1)) [] (keyChars (foldText e.1)) :=
    toList_key_eq e.1 ▸ writes_put (key e.1)
  exact hk.seq ((writes_put ": ").seq h)

theorem chars_list (items : List Value) :
    (Value.list items).canon.chars = '[' :: (separated (items.map (·.canon.chars)) ++ [']']) := by
  simp only [Value.canon, chars, itemChars_eq_map, Value.itemCanons_eq_map, List.map_map,
    Function.comp_def]

theorem writes_list {items : List Value} (h : ∀ v ∈ items, Writes (emit v) v.visits v.canon.chars) :
    Writes (emit (.list items)) (Value.list items).visits (Value.list items).canon.chars := by
  rw [chars_list, Value.visits, Value.itemVisits_eq_flatMap]
  have hitems := writes_all h
  rw [← emitItems_eq] at hitems
  simpa [emit] using (writes_put "[").seq (hitems.seq (writes_put "]"))

theorem canon_map (entries : List (String × Value)) :
    (Value.map ⟨entries⟩).canon =
      if (OrderedMap.mk entries).isIndexed then (Value.list (entries.map (·.2))).canon
      else .record (entries.map fun e => (foldText e.1, e.2.canon)) := by
  simp only [Value.canon, Value.mapTerm, OrderedMap.length_keys, ← OrderedMap.isIndexed_iff,
    Value.entryCanons_eq_map, Value.itemCanons_eq_map, List.map_map, Function.comp_def]

theorem writes_map {entries : List (String × Value)}
    (h : ∀ e ∈ entries, Writes (emit e.2) e.2.visits e.2.canon.chars) :
    Writes (emit (.map ⟨entries⟩)) (Value.map ⟨entries⟩).visits
      (Value.map ⟨entries⟩).canon.chars := by
  have hv : (Value.map ⟨entries⟩).visits = (Value.list (entries.map (·.2))).visits := by
    rw [Value.visits, Value.visits, Value.entryVisits_eq_flatMap, Value.itemVisits_eq_flatMap,
      List.flatMap_map]
  rw [canon_map]
  by_cases hm : (OrderedMap.mk entries).isIndexed = true
  · -- the list of the values stands for the map
    rw [emit_map_of_isIndexed hm, if_pos hm, hv]
    refine writes_list fun v hv => ?_
    obtain ⟨e, he, rfl⟩ := List.mem_map.1 hv
    exact h e he
  · rw [if_neg hm, Value.visits, Value.entryVisits_eq_flatMap, chars, entryChars_eq_map,
      List.map_map]
    have hentries := writes_all fun e he => writes_entry (h e he)
    rw [← emitEntries_eq] at hentries
    simpa [emit, hm, Function.comp_def] using
      (writes_put "\x7b").seq (hentries.seq (writes_put "\x7d"))

theorem chars_floatTerm (d : Double) : (Value.floatTerm d).chars = d.text.toList := by
  unfold Value.floatTerm Double.text
  split
  · rfl
  · split
    · rfl
    · cases d.negative <;> rfl

theorem chars_date (t : Timestamp) :
    (Term.date (t.totalMicros / 1000)).chars = (ofTimestamp t).toList := by
  rw [chars, thousandths_div]
  simp [ofTimestamp, Timestamp.milliseconds, Decimal.text, dateWord]

theorem writes_resolution {r : Resolution Value}
    (h : ∀ v, r.nested? = some v → Writes (emit v) v.visits v.canon.chars) :
    Writes (emitResolution r) (Value.resolutionVisits r) (Value.resolutionCanon r).chars := by
  cases r with
  | substitute v =>
    have hv := h v rfl
    cases v with
    | string source => exact writes_verbatim source
    | _ => exact hv
  | exported v => exact h v rfl
  | rendered source => exact writes_verbatim source
  | instant t => exact chars_date t ▸ writes_put (ofTimestamp t)

/-- **Writing a value reports its walk and appends its term.** -/
theorem emit_writes (v : Value) : Writes (emit v) v.visits v.canon.chars := by
  induction v using Value.walkInduction with
  | null => exact writes_put "null"
  | bool b => cases b <;> exact writes_put (ofBool _)
  | integer i => exact writes_put (ofInteger i)
  | float d =>
    rw [Value.canon, chars_floatTerm]
    exact writes_put d.text
  | string s =>
    rw [Value.canon, chars, ← toList_quote_eq]
    exact writes_put (quote s)
  | list items ih => exact writes_list ih
  | map entries ih => exact writes_map ih
  | object o ih =>
    rw [emit_object, Value.visits_object, Value.canon_object]
    cases hr : o.resolution? with
    | none => exact writes_throw (.unsupportedObject o.typeName) _
    | some r =>
      exact (writes_resolving o.typeName r.capability).seq
        (writes_resolution fun v hv => ih r v hr hv)
  | resource name => exact writes_throw (.unsupportedType name) _

end Literal

/-! ## Outcomes -/

namespace Value

open Literal

/-- **The outcome of writing a value**: its term if the walk meets no fault, else
    the first fault; the reports of the walk, and the failure as the last event. -/
theorem emission_eq (v : Value) :
    v.emission =
      match firstFault v.visits with
      | none => ⟨.ok v.canon.text, reports v.visits⟩
      | some f => ⟨.error f, reports v.visits ++ [.failed f]⟩ := by
  obtain ⟨d, he, h⟩ := emit_writes v .empty
  unfold emission
  cases hf : firstFault v.visits with
  | none =>
    rw [hf] at h
    have ht : d.text = v.canon.text := by
      rw [← String.toList_inj, h.2, Term.text, String.toList_ofList]; rfl
    rw [h.1]
    dsimp only
    rw [ht, he]
    rfl
  | some f =>
    rw [hf] at h
    dsimp only at h
    rw [h]
    dsimp only
    rw [he]
    rfl

/-- The literal of a value is its term, unless the walk meets a fault. -/
theorem literal_eq (v : Value) :
    v.literal =
      match firstFault v.visits with
      | none => .ok v.canon.text
      | some f => .error f := by
  rw [literal, emission_eq]
  cases firstFault v.visits <;> rfl

end Value

end ScriptLiteral
