/-
  Script literals — the walk over a value.

  The walk meets what is written, in the order in which it is written: items from
  left to right, the values of a map in the order of its entries, and of an
  object only what its first capability gives.  It does not stop at a fault, and
  it does not ask how a map will be written.

  * `Visit` is what the walk can meet: an object that is resolved, source text
    of the host, or a fault; `Value.visits` are the visits of the walk, in order;
  * `Value.faults` are the faults among them, and `reports` the objects that are
    reported up to the first fault;
  * `Value.surface` is the value without what the walk never looks at;
  * `Value.walkInduction` is induction along the walk.
-/
import ScriptLiteral.Literal.Draft
import ScriptLiteral.Value

namespace ScriptLiteral

/-- The value that is walked instead of an object, if there is one. -/
def Resolution.nested? {α : Type} : Resolution α → Option α
  | substitute v => some v
  | exported v => some v
  | rendered _ => none
  | instant _ => none

/-! ## Visits -/

/-- What the walk meets. -/
inductive Visit where
  /-- An object with this capability as its first. -/
  | resolved (typeName : String) (capability : Capability)
  /-- Source text of the host. -/
  | verbatim (source : String)
  /-- A value without literal. -/
  | fault (fault : Fault)
deriving DecidableEq

namespace Visit

/-- The fault that is met. -/
def fault? : Visit → Option Fault
  | resolved .. => none
  | verbatim _ => none
  | fault f => some f

/-- The event that is reported. -/
def event? : Visit → Option Event
  | resolved typeName capability => some (.resolving typeName capability)
  | verbatim _ => none
  | fault _ => none

end Visit

/-- The first fault among visits. -/
def firstFault (visits : List Visit) : Option Fault := visits.findSome? Visit.fault?

/-- What is reported of visits up to the first fault. -/
def reports (visits : List Visit) : List Event :=
  (visits.takeWhile (·.fault?.isNone)).filterMap Visit.event?

theorem firstFault_append (vs ws : List Visit) :
    firstFault (vs ++ ws) = (firstFault vs).or (firstFault ws) := by
  simp only [firstFault, List.findSome?_append]

theorem firstFault_eq_head? (vs : List Visit) :
    firstFault vs = (vs.filterMap Visit.fault?).head? :=
  (List.head?_filterMap ..).symm

theorem reports_cons (x : Visit) (vs : List Visit) :
    reports (x :: vs) = if x.fault?.isNone then x.event?.toList ++ reports vs else [] := by
  unfold reports
  rw [List.takeWhile_cons]
  split
  · cases he : x.event? <;> simp [he]
  · rfl

/-- Behind a fault nothing is reported. -/
theorem reports_append (vs ws : List Visit) :
    reports (vs ++ ws) = reports vs ++ if firstFault vs = none then reports ws else [] := by
  induction vs with
  | nil => rfl
  | cons x vs ih =>
    rw [List.cons_append, reports_cons, reports_cons, ih]
    cases hx : x.fault? <;> simp [firstFault, hx]

namespace Value

/-! ## The walk -/

mutual

/-- What the walk over a value meets, in order. -/
def visits : Value → List Visit
  | .list items => itemVisits items
  | .map ⟨entries⟩ => entryVisits entries
  | .object { typeName, substitute := some v, .. } =>
    .resolved typeName .customSerializable ::
      match v with
      | .string source => [.verbatim source]
      | v => visits v
  | .object { typeName, exported := some v, .. } =>
    .resolved typeName .mapExportable :: visits v
  | .object { typeName, rendered := some source, .. } =>
    [.resolved typeName .textRenderable, .verbatim source]
  | .object { typeName, instant := some _, .. } => [.resolved typeName .temporalValue]
  | .object o => [.fault (.unsupportedObject o.typeName)]
  | .resource typeName => [.fault (.unsupportedType typeName)]
  | .null => []
  | .bool _ => []
  | .integer _ => []
  | .float _ => []
  | .string _ => []

/-- What the walk over items meets, from left to right. -/
def itemVisits : List Value → List Visit
  | [] => []
  | v :: vs => visits v ++ itemVisits vs

/-- What the walk over the values of entries meets, in the order of the entries. -/
def entryVisits : List (String × Value) → List Visit
  | [] => []
  | (_, v) :: rest => visits v ++ entryVisits rest

end

/-- The faults of a value, in the order of the walk. -/
def faults (v : Value) : List Fault := v.visits.filterMap Visit.fault?

theorem itemVisits_eq_flatMap (items : List Value) : itemVisits items = items.flatMap visits := by
  induction items with
  | nil => rfl
  | cons v vs ih => simp only [itemVisits, List.flatMap_cons, ih]

theorem entryVisits_eq_flatMap (entries : List (String × Value)) :
    entryVisits entries = entries.flatMap fun e => visits e.2 := by
  induction entries with
  | nil => rfl
  | cons e rest ih => simp only [entryVisits, List.flatMap_cons, ih]

/-- What the walk over a resolution meets.  A substitute that is a text is source
    text. -/
def resolutionVisits : Resolution Value → List Visit
  | .substitute (.string source) => [.verbatim source]
  | .substitute v => visits v
  | .exported v => visits v
  | .rendered source => [.verbatim source]
  | .instant _ => []

theorem visits_object (o : HostObject Value) :
    visits (.object o) =
      match o.resolution? with
      | some r => .resolved o.typeName r.capability :: resolutionVisits r
      | none => [.fault (.unsupportedObject o.typeName)] := by
  cases o using HostObject.firstCases with
  | substitute _ _ _ v => cases v <;> rfl
  | exported | rendered | instant | without => rfl

/-! ## What the walk never looks at -/

mutual

/-- The value whose objects have nothing but their first capability. -/
def surface : Value → Value
  | .list items => .list (itemSurfaces items)
  | .map ⟨entries⟩ => .map ⟨entrySurfaces entries⟩
  | .object { identity, typeName, debugText, substitute := some v, .. } =>
    .object { identity, typeName, debugText, substitute := some (surface v) }
  | .object { identity, typeName, debugText, exported := some v, .. } =>
    .object { identity, typeName, debugText, exported := some (surface v) }
  | .object { identity, typeName, debugText, rendered := some source, .. } =>
    .object { identity, typeName, debugText, rendered := some source }
  | .object o => .object o
  | .null => .null
  | .bool b => .bool b
  | .integer i => .integer i
  | .float d => .float d
  | .string s => .string s
  | .resource typeName => .resource typeName

/-- The items, each without what the walk never looks at. -/
def itemSurfaces : List Value → List Value
  | [] => []
  | v :: vs => surface v :: itemSurfaces vs

/-- The entries, each value without what the walk never looks at. -/
def entrySurfaces : List (String × Value) → List (String × Value)
  | [] => []
  | (k, v) :: rest => (k, surface v) :: entrySurfaces rest

end

/-! ## Induction along the walk -/

theorem sizeOf_snd_lt {entries : List (String × Value)} {e : String × Value} (h : e ∈ entries) :
    sizeOf e.2 < sizeOf entries := by
  have h₁ := List.sizeOf_lt_of_mem h
  obtain ⟨k, v⟩ := e
  simp only [Prod.mk.sizeOf_spec] at h₁ ⊢
  omega

theorem sizeOf_nested?_lt {o : HostObject Value} {r : Resolution Value} {v : Value}
    (hr : o.resolution? = some r) (hv : r.nested? = some v) : sizeOf v < sizeOf o := by
  cases o using HostObject.firstCases with
  | substitute | exported =>
    cases hr; cases hv
    simp only [HostObject.mk.sizeOf_spec, Option.some.sizeOf_spec]
    omega
  | rendered | instant => cases hr; cases hv
  | without => cases hr

/-- **Induction along the walk**: a property holds of every value if it holds of
    a list when it holds of the items, of a map when it holds of the values, and
    of an object when it holds of the value that is walked instead. -/
theorem walkInduction {motive : Value → Prop}
    (null : motive .null) (bool : ∀ b, motive (.bool b)) (integer : ∀ i, motive (.integer i))
    (float : ∀ d, motive (.float d)) (string : ∀ s, motive (.string s))
    (list : ∀ items, (∀ v ∈ items, motive v) → motive (.list items))
    (map : ∀ entries, (∀ e ∈ entries, motive e.2) → motive (.map ⟨entries⟩))
    (object : ∀ o : HostObject Value,
      (∀ r v, o.resolution? = some r → r.nested? = some v → motive v) → motive (.object o))
    (resource : ∀ name, motive (.resource name)) (v : Value) : motive v := by
  match v with
  | .null => exact null
  | .bool b => exact bool b
  | .integer i => exact integer i
  | .float d => exact float d
  | .string s => exact string s
  | .list items =>
    exact list items fun w hw =>
      walkInduction null bool integer float string list map object resource w
  | .map ⟨entries⟩ =>
    exact map entries fun e he =>
      walkInduction null bool integer float string list map object resource e.2
  | .object o =>
    exact object o fun r w hr hw =>
      walkInduction null bool integer float string list map object resource w
  | .resource name => exact resource name
termination_by sizeOf v
decreasing_by
  · have := List.sizeOf_lt_of_mem hw
    simp only [Value.list.sizeOf_spec]
    omega
  · have := sizeOf_snd_lt he
    simp only [Value.map.sizeOf_spec, OrderedMap.mk.sizeOf_spec]
    omega
  · have := sizeOf_nested?_lt hr hw
    simp only [Value.object.sizeOf_spec]
    omega

end Value

end ScriptLiteral
