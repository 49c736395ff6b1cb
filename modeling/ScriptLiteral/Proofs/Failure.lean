/-
  Script literals — which values have no literal.

  * `alike_surface`: what stands behind the first capability of an object plays
    no part, neither in the walk nor in the term;
  * `literal_fails_at_first_fault`: a value has no literal iff its walk meets a
    fault, and then the first one is the answer.
-/
import ScriptLiteral.Proofs.Emission

namespace ScriptLiteral

/-- A resolution with another value in it. -/
def Resolution.map {α β : Type} (f : α → β) : Resolution α → Resolution β
  | substitute v => .substitute (f v)
  | exported v => .exported (f v)
  | rendered source => .rendered source
  | instant t => .instant t

@[simp] theorem Resolution.capability_map {α β : Type} (f : α → β) (r : Resolution α) :
    (r.map f).capability = r.capability := by
  cases r <;> rfl

namespace Value

/-! ## Behind the first capability -/

theorem itemSurfaces_eq_map (items : List Value) : itemSurfaces items = items.map surface := by
  induction items with
  | nil => rfl
  | cons v vs ih => simp only [itemSurfaces, List.map_cons, ih]

theorem entrySurfaces_eq_map (entries : List (String × Value)) :
    entrySurfaces entries = entries.map fun e => (e.1, e.2.surface) := by
  induction entries with
  | nil => rfl
  | cons e rest ih => simp only [entrySurfaces, List.map_cons, ih]

theorem surface_object (o : HostObject Value) :
    ∃ p : HostObject Value, surface (.object o) = .object p ∧ p.typeName = o.typeName ∧
      p.resolution? = o.resolution?.map (·.map surface) := by
  cases o using HostObject.firstCases <;> exact ⟨_, rfl, rfl, rfl⟩

/-- The values have the same walk and the same term. -/
def Alike (v w : Value) : Prop := v.visits = w.visits ∧ v.canon = w.canon

theorem alike_resolution {r : Resolution Value}
    (h : ∀ v, r.nested? = some v → Alike v.surface v) :
    resolutionVisits (r.map surface) = resolutionVisits r ∧
      resolutionCanon (r.map surface) = resolutionCanon r := by
  cases r with
  | substitute v =>
    have hv := h v rfl
    -- a text is source text, and what is no text stays none
    cases v with
    | string source => exact ⟨rfl, rfl⟩
    | object o =>
      obtain ⟨p, hp, -⟩ := surface_object o
      simp only [Resolution.map, hp] at hv ⊢
      exact hv
    | _ => exact hv
  | exported v => exact h v rfl
  | rendered source => exact ⟨rfl, rfl⟩
  | instant t => exact ⟨rfl, rfl⟩

theorem alike_items {items : List Value} (h : ∀ v ∈ items, Alike v.surface v) :
    Alike (surface (.list items)) (.list items) := by
  rw [surface, itemSurfaces_eq_map]
  refine ⟨?_, ?_⟩
  · rw [visits, visits, itemVisits_eq_flatMap, itemVisits_eq_flatMap, List.flatMap_map]
    exact List.flatMap_congr fun v hv => (h v hv).1
  · rw [canon, canon, itemCanons_eq_map, itemCanons_eq_map, List.map_map]
    exact congrArg Term.list (List.map_congr_left fun v hv => (h v hv).2)

theorem alike_entries {entries : List (String × Value)}
    (h : ∀ e ∈ entries, Alike e.2.surface e.2) :
    Alike (surface (.map ⟨entries⟩)) (.map ⟨entries⟩) := by
  have hk : (OrderedMap.mk (entrySurfaces entries)).keys = (OrderedMap.mk entries).keys := by
    simp only [OrderedMap.keys, entrySurfaces_eq_map, List.map_map, Function.comp_def]
  refine ⟨?_, ?_⟩
  · rw [surface, visits, visits, entryVisits_eq_flatMap, entryVisits_eq_flatMap,
      entrySurfaces_eq_map, List.flatMap_map]
    exact List.flatMap_congr fun e he => (h e he).1
  · rw [surface, canon, canon, hk, entryCanons_eq_map, entryCanons_eq_map, entrySurfaces_eq_map,
      List.map_map]
    refine congrArg _ (List.map_congr_left fun e he => ?_)
    exact congrArg (foldText e.1, ·) (h e he).2

/-- **Walk and term are those of the surface.** -/
theorem alike_surface (v : Value) : Alike v.surface v := by
  induction v using walkInduction with
  | null => exact ⟨rfl, rfl⟩
  | bool b => exact ⟨rfl, rfl⟩
  | integer i => exact ⟨rfl, rfl⟩
  | float d => exact ⟨rfl, rfl⟩
  | string s => exact ⟨rfl, rfl⟩
  | list items ih => exact alike_items ih
  | map entries ih => exact alike_entries ih
  | object o ih =>
    obtain ⟨p, hp, hn, hr⟩ := surface_object o
    unfold Alike
    rw [hp, visits_object, visits_object, canon_object, canon_object, hr, hn]
    cases ho : o.resolution? with
    | none => exact ⟨rfl, rfl⟩
    | some r =>
      obtain ⟨h₁, h₂⟩ := alike_resolution fun v hv => ih r v ho hv
      simp only [Option.map_some, Option.getD_some, Resolution.capability_map]
      exact ⟨by rw [h₁], h₂⟩
  | resource name => exact ⟨rfl, rfl⟩

/-! ## Failure -/

theorem literal_eq_error_iff {v : Value} {f : Fault} :
    v.literal = .error f ↔ v.faults.head? = some f := by
  rw [literal_eq, faults, ← firstFault_eq_head?]
  cases firstFault v.visits with
  | none => simp
  | some g => simp

theorem literal_isOk_iff {v : Value} : (∃ t, v.literal = .ok t) ↔ v.faults = [] := by
  rw [literal_eq, ← List.head?_eq_none_iff, faults, ← firstFault_eq_head?]
  cases firstFault v.visits with
  | none => simp
  | some g => simp

/-- **A value fails at the first fault of its walk**, and at no other: it has no
    literal iff the walk meets a fault, the fault reported is the first one, and
    what stands behind the first capability of an object, at any depth, changes
    nothing. -/
theorem literal_fails_at_first_fault (v : Value) :
    (∀ f, v.literal = .error f ↔ v.faults.head? = some f) ∧
      ((∃ t, v.literal = .ok t) ↔ v.faults = []) ∧
      v.surface.literal = v.literal := by
  refine ⟨fun f => literal_eq_error_iff, literal_isOk_iff, ?_⟩
  obtain ⟨h₁, h₂⟩ := alike_surface v
  rw [literal_eq, literal_eq, h₁, h₂]

end Value

end ScriptLiteral
