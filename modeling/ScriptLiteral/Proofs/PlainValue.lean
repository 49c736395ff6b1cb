/-
  Script literals — values without host objects.

  A plain value has no host object and no resource in it, however deep.  Data and
  JSON trees give plain values only, and a plain value always has a literal; so a
  literal of either fails where its source fails, and nowhere else.

  * `Value.Plain` are the plain values, and `Plain.literal_eq` is the literal of
    one;
  * `Ensures x P` says that `x` has a result with the property `P` or none at
    all; it is kept by sequences of steps (`Ensures.bind`);
  * `Datum.plain_toValue` and `Json.plain_toValue`: what the two conversions give
    is plain;
  * `literal_fails_with_source`: which failures there are.
-/
import ScriptLiteral.Literal.Sources
import ScriptLiteral.Proofs.Failure

namespace ScriptLiteral

/-! ## Maps whose values have a property -/

namespace OrderedMap

variable {α : Type} {P : α → Prop} {m : OrderedMap α}

theorem mem_place {k : String} {v : α} {l : List (String × α)} {e : String × α}
    (h : e ∈ (place k v l).2) : e.2 = v ∨ e ∈ l := by
  induction l with
  | nil =>
    obtain rfl := List.mem_singleton.1 h
    exact .inl rfl
  | cons e' l ih =>
    obtain ⟨k', v'⟩ := e'
    unfold place at h
    split at h
    · rcases List.mem_cons.1 h with rfl | h
      · exact .inl rfl
      · exact .inr (List.mem_cons_of_mem _ h)
    · rcases List.mem_cons.1 h with rfl | h
      · exact .inr (List.mem_cons_self ..)
      · exact (ih h).imp_right (List.mem_cons_of_mem _)

/-- Every value of the map has the property. -/
def All (P : α → Prop) (m : OrderedMap α) : Prop := ∀ v ∈ m.values, P v

theorem all_empty : (empty : OrderedMap α).All P := nofun

theorem All.insert (hm : m.All P) (k : String) {v : α} (hv : P v) : (m.insert k v).All P := by
  intro w hw
  obtain ⟨e, he, rfl⟩ := List.mem_map.1 hw
  rcases mem_place he with h | h
  · exact h ▸ hv
  · exact hm _ (List.mem_map_of_mem h)

theorem All.extend (hm : m.All P) {pairs : List (String × α)} (hp : ∀ e ∈ pairs, P e.2) :
    (m.extend pairs).All P := by
  induction pairs generalizing m with
  | nil => exact hm
  | cons e pairs ih =>
    exact ih (hm.insert e.1 (hp e (List.mem_cons_self ..)))
      fun e' he' => hp e' (List.mem_cons_of_mem _ he')

end OrderedMap

/-! ## Plain values -/

namespace Value

/-- A value with neither a host object nor a resource in it. -/
inductive Plain : Value → Prop where
  | null : Plain .null
  | bool (b : Bool) : Plain (.bool b)
  | integer (i : Int64) : Plain (.integer i)
  | float (d : Double) : Plain (.float d)
  | string (s : String) : Plain (.string s)
  | list {items : List Value} (h : ∀ v ∈ items, Plain v) : Plain (.list items)
  | map {m : OrderedMap Value} (h : ∀ v ∈ m.values, Plain v) : Plain (.map m)

theorem Plain.visits_eq_nil {v : Value} (h : v.Plain) : v.visits = [] := by
  induction h with
  | list _ ih =>
    rw [visits, itemVisits_eq_flatMap]
    exact List.flatMap_eq_nil_iff.2 ih
  | @map m _ ih =>
    obtain ⟨entries⟩ := m
    rw [visits, entryVisits_eq_flatMap]
    exact List.flatMap_eq_nil_iff.2 fun e he => ih _ (List.mem_map_of_mem he)
  | _ => rfl

/-- **A plain value has a literal**: its term. -/
theorem Plain.literal_eq {v : Value} (h : v.Plain) : v.literal = .ok v.canon.text := by
  rw [Value.literal_eq, h.visits_eq_nil]
  rfl

theorem plain_ofInt (i : Int) : (ofInt i).Plain := by
  unfold ofInt
  split
  · exact .integer _
  · exact .float _

end Value

/-! ## What a conversion ensures -/

/-- If there is a result, it has the property. -/
def Ensures {ε α : Type} (x : Except ε α) (P : α → Prop) : Prop := ∀ a, x = .ok a → P a

namespace Ensures

variable {ε α β : Type} {P : α → Prop} {Q : β → Prop}

theorem pure {a : α} (h : P a) : Ensures (Pure.pure a : Except ε α) P := by
  rintro _ ⟨⟩
  exact h

theorem throw (e : ε) : Ensures (throw e : Except ε α) P := by
  rintro _ ⟨⟩

theorem bind {x : Except ε α} {f : α → Except ε β} (hx : Ensures x P)
    (hf : ∀ a, P a → Ensures (f a) Q) : Ensures (x >>= f) Q := by
  intro b hb
  cases h : x with
  | error e => rw [h] at hb; nomatch hb
  | ok a => rw [h] at hb; exact hf a (hx a h) b hb

theorem any (x : Except ε α) : Ensures x fun _ => True := fun _ _ => trivial

end Ensures

/-! ## Values of data -/

namespace MapBuilder

/-- Every value built so far has the property. -/
def All (P : Value → Prop) (b : MapBuilder) : Prop := b.entries.All P

variable {P : Value → Prop} {b : MapBuilder}

theorem All.setKey (hb : b.All P) (key : Value) : Ensures (b.setKey key) (All P) := by
  intro b' h
  unfold MapBuilder.setKey at h
  split at h
  · cases h; exact hb
  · nomatch h

theorem All.takeKey (hb : b.All P) : Ensures b.takeKey fun r => r.2.All P := by
  intro r h
  unfold MapBuilder.takeKey at h
  split at h
  · cases h; exact hb
  · nomatch h

theorem All.insert (hb : b.All P) (k : String) {v : Value} (hv : P v) : (b.insert k v).All P :=
  OrderedMap.All.insert hb k hv

end MapBuilder

namespace Datum

theorem plain_tagged (variant : String) {v : Value} (h : v.Plain) : (tagged variant v).Plain :=
  .map (OrderedMap.all_empty.insert variant h)

mutual

/-- **The value of a datum is plain.** -/
theorem plain_toValue : ∀ d : Datum, Ensures d.toValue Value.Plain
  | .bool b => .pure (.bool b)
  | .integer i => .pure (Value.plain_ofInt i.val)
  | .single s => .pure (.float s.toDouble)
  | .double d => .pure (.float d)
  | .char c => .pure (.string c.toString)
  | .text s => .pure (.string s)
  | .display s => .pure (.string s)
  | .bytes bs => by
    refine .pure (.list fun v hv => ?_)
    obtain ⟨b, -, rfl⟩ := List.mem_map.1 hv
    exact Value.plain_ofInt _
  | .absent => .pure .null
  | .present d => plain_toValue d
  | .unit => .pure .null
  | .unitRecord _ => .pure .null
  | .unitVariant _ variant => .pure (.string variant)
  | .wrapper _ d => plain_toValue d
  | .wrapperVariant _ variant d =>
    (plain_toValue d).bind fun _ hv => .pure (plain_tagged variant hv)
  | .sequence items => (plain_itemValues items).bind fun _ hvs => .pure (.list hvs)
  | .tuple items => (plain_itemValues items).bind fun _ hvs => .pure (.list hvs)
  | .namedTuple _ items => (plain_itemValues items).bind fun _ hvs => .pure (.list hvs)
  | .tupleVariant _ variant items =>
    (plain_itemValues items).bind fun _ hvs => .pure (plain_tagged variant (.list hvs))
  | .record _ fields =>
    (plain_insertFields fields OrderedMap.all_empty).bind fun _ hm => .pure (.map hm)
  | .recordVariant _ variant fields =>
    (plain_insertFields fields OrderedMap.all_empty).bind fun _ hm =>
      .pure (plain_tagged variant (.map hm))
  | .map calls =>
    (plain_runCalls calls (b := .empty) OrderedMap.all_empty).bind fun _ hb => .pure (.map hb)
  | .failure message => .throw (DatumFault.reported message)

theorem plain_itemValues : ∀ items : List Datum,
    Ensures (itemValues items) fun vs => ∀ v ∈ vs, v.Plain
  | [] => .pure (by simp)
  | d :: ds =>
    (plain_toValue d).bind fun _ hv => (plain_itemValues ds).bind fun _ hvs =>
      .pure (List.forall_mem_cons.2 ⟨hv, hvs⟩)

theorem plain_insertFields : ∀ (fields : List (String × Option Datum)) {m : OrderedMap Value},
    m.All Value.Plain → Ensures (insertFields m fields) (OrderedMap.All Value.Plain)
  | [], _, hm => .pure hm
  | (_, none) :: rest, _, hm => plain_insertFields rest hm
  | (name, some d) :: rest, _, hm =>
    (plain_toValue d).bind fun _ hv => plain_insertFields rest (hm.insert name hv)

theorem plain_runCalls : ∀ (calls : List (MapCall Datum)) {b : MapBuilder},
    b.All Value.Plain → Ensures (runCalls b calls) (MapBuilder.All Value.Plain)
  -- of a key only the text is kept, so nothing need be known of its value
  | [], _, hb => .pure hb
  | .key _ :: rest, _, hb =>
    (Ensures.any _).bind fun key _ => (hb.setKey key).bind fun _ hb => plain_runCalls rest hb
  | .value v :: rest, _, hb =>
    hb.takeKey.bind fun (k, _) hb => (plain_toValue v).bind fun _ hv =>
      plain_runCalls rest (hb.insert k hv)
  | .entry _ v :: rest, _, hb =>
    (Ensures.any _).bind fun key _ => (hb.setKey key).bind fun _ hb =>
      hb.takeKey.bind fun (k, _) hb => (plain_toValue v).bind fun _ hv =>
        plain_runCalls rest (hb.insert k hv)

end

end Datum

/-! ## Values of JSON trees -/

namespace Json

theorem Number.plain_toValue (n : Number) : n.toValue.Plain := by
  unfold Number.toValue
  split
  · exact .integer _
  · split
    · exact Value.plain_ofInt _
    · split
      · exact .float _
      · exact .null

mutual

/-- **The value of a JSON tree is plain.** -/
theorem plain_toValue : ∀ j : Json, j.toValue.Plain
  | null => .null
  | bool b => .bool b
  | number n => n.plain_toValue
  | string s => .string s
  | array items => .list (plain_itemValues items)
  | object ⟨members⟩ => .map (OrderedMap.all_empty.extend (plain_memberValues members))

theorem plain_itemValues : ∀ items : List Json, ∀ v ∈ itemValues items, v.Plain
  | [] => nofun
  | j :: js => List.forall_mem_cons.2 ⟨plain_toValue j, plain_itemValues js⟩

theorem plain_memberValues : ∀ members : List (String × Json),
    ∀ e ∈ memberValues members, e.2.Plain
  | [] => nofun
  | (_, j) :: rest => List.forall_mem_cons.2 ⟨plain_toValue j, plain_memberValues rest⟩

end

end Json

/-! ## Failures -/

section
variable {ε α : Type}

/-- The literal of what a source gives, or the error of the source. -/
def literalFrom (source : Except ε α) (value : α → Value) (wrap : ε → LiteralError) :
    Except LiteralError String :=
  match source with
  | .error e => .error (wrap e)
  | .ok a => (value a).literal.mapError .fault

variable {source : Except ε α} {value : α → Value} {wrap : ε → LiteralError}

theorem literalFrom_eq (h : Ensures source fun a => (value a).Plain) :
    literalFrom source value wrap = (source.map fun a => (value a).canon.text).mapError wrap := by
  unfold literalFrom
  cases source with
  | error e => rfl
  | ok a => simp only [(h a rfl).literal_eq]; rfl

theorem literalFrom_eq_ok_iff (h : Ensures source fun a => (value a).Plain) {t : String} :
    literalFrom source value wrap = .ok t ↔
      ∃ a, source = .ok a ∧ (value a).literal = .ok t := by
  rw [literalFrom_eq h]
  cases source with
  | error e => simp [Except.map, Except.mapError]
  | ok a => simp [Except.map, Except.mapError, (h a rfl).literal_eq]

theorem literalFrom_isOk_iff (h : Ensures source fun a => (value a).Plain) :
    (∃ t, literalFrom source value wrap = .ok t) ↔ ∃ a, source = .ok a := by
  constructor
  · rintro ⟨t, ht⟩
    obtain ⟨a, ha, -⟩ := (literalFrom_eq_ok_iff h).1 ht
    exact ⟨a, ha⟩
  · rintro ⟨a, ha⟩
    exact ⟨_, (literalFrom_eq_ok_iff h).2 ⟨a, ha, (h a ha).literal_eq⟩⟩

theorem literalFrom_eq_error_iff (h : Ensures source fun a => (value a).Plain)
    {e : LiteralError} :
    literalFrom source value wrap = .error e ↔ ∃ f, source = .error f ∧ e = wrap f := by
  rw [literalFrom_eq h]
  cases source with
  | error f => simp [Except.map, Except.mapError, eq_comm]
  | ok a => simp [Except.map, Except.mapError]

end

theorem Datum.literal_eq (d : Datum) : d.literal = literalFrom d.toValue id .datum := by
  unfold Datum.literal literalFrom
  cases d.toValue <;> rfl

theorem Json.literalOfText_eq (text : String) :
    literalOfText text = literalFrom (parse text) toValue .json := by
  unfold literalOfText literalFrom
  cases parse text <;> rfl

/-- **A literal fails with its source, and only so.**

    The value of a datum is plain.  There is a literal of the datum iff there is a
    value, and it is the literal of that value; the only failures are the faults
    of the datum, with their own messages.

    There is no literal of a JSON text iff the text is rejected; the only failures
    are the errors of the reader, with its messages.

    So a value without literal is the reason in neither case. -/
theorem literal_fails_with_source :
    (∀ d : Datum,
      (∀ v, d.toValue = .ok v → v.Plain) ∧
      ((∃ t, d.literal = .ok t) ↔ ∃ v, d.toValue = .ok v) ∧
      (∀ t, d.literal = .ok t ↔ ∃ v, d.toValue = .ok v ∧ v.literal = .ok t) ∧
      (∀ e, d.literal = .error e ↔
        ∃ f, d.toValue = .error f ∧ e = .datum f ∧ e.message = f.message) ∧
      ∀ f, d.literal ≠ .error (.fault f)) ∧
    ∀ text : String,
      ((∃ e, Json.literalOfText text = .error e) ↔ ∃ p, Json.parse text = .error p) ∧
      (∀ t, Json.literalOfText text = .ok t ↔
        ∃ j, Json.parse text = .ok j ∧ j.toValue.literal = .ok t) ∧
      (∀ e, Json.literalOfText text = .error e ↔
        ∃ p, Json.parse text = .error p ∧ e = .json p ∧
          e.message = "JSON parse error: " ++ p.message) ∧
      ∀ f, Json.literalOfText text ≠ .error (.fault f) := by
  constructor
  · intro d
    have hplain : Ensures d.toValue fun v => (id v).Plain := Datum.plain_toValue d
    rw [Datum.literal_eq]
    refine ⟨hplain, literalFrom_isOk_iff hplain, fun t => literalFrom_eq_ok_iff hplain,
      fun e => ?_, fun f h => ?_⟩
    · rw [literalFrom_eq_error_iff hplain]
      constructor
      · rintro ⟨f, hf, rfl⟩
        exact ⟨f, hf, rfl, rfl⟩
      · rintro ⟨f, hf, he, -⟩
        exact ⟨f, hf, he⟩
    · obtain ⟨g, -, he⟩ := (literalFrom_eq_error_iff hplain).1 h
      nomatch he
  · intro text
    have hplain : Ensures (Json.parse text) fun j => j.toValue.Plain :=
      fun j _ => Json.plain_toValue j
    rw [Json.literalOfText_eq]
    refine ⟨?_, fun t => literalFrom_eq_ok_iff hplain, fun e => ?_, fun f h => ?_⟩
    · simp only [literalFrom_eq_error_iff hplain]
      constructor
      · rintro ⟨_, p, hp, -⟩
        exact ⟨p, hp⟩
      · rintro ⟨p, hp⟩
        exact ⟨_, p, hp, rfl⟩
    · rw [literalFrom_eq_error_iff hplain]
      constructor
      · rintro ⟨p, hp, rfl⟩
        exact ⟨p, hp, rfl, rfl⟩
      · rintro ⟨p, hp, he, -⟩
        exact ⟨p, hp, he⟩
    · obtain ⟨p, -, he⟩ := (literalFrom_eq_error_iff hplain).1 h
      nomatch he

end ScriptLiteral
