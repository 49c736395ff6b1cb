/-
  Script literals — equality of values.

  Equality looks at numbers as numbers and at objects by identity.  So a value has a form
  in which the zeros have no sign and the objects nothing but their identity, and values
  are equal iff they have the same form and no NaN.  An identity tells the object, hence
  equal values are written alike but for the signs of zeros.

  * `Value.leaves` are the parts of a value that are neither lists nor maps, and
    `Value.mapLeaves` replaces them;
  * `Value.form` is the form of a value, and `Value.beq_iff` says what equality is;
  * `Value.DrawnFrom host v` says that the objects in `v` are objects of the host, and
    `positiveZeros_eq` that these and the form tell the value but for the signs of zeros;
  * `Value.beq_partial_equivalence` puts these together.
-/
import Mathlib
import ScriptLiteral.Literal.Emit
import ScriptLiteral.Proofs.Walk

namespace ScriptLiteral

namespace Double

/-- The same number, but a zero without its sign. -/
def positiveZero (d : Double) : Double := if d.rank = 0 then zero false else d

theorem isNaN_positiveZero (d : Double) : d.positiveZero.IsNaN ↔ d.IsNaN := by
  unfold positiveZero
  split
  · next h => simp [IsNaN, zero, h]
  · rfl

theorem numEq_iff_positiveZero {a b : Double} :
    a.numEq b = true ↔ a.positiveZero = b.positiveZero ∧ ¬ a.IsNaN := by
  rw [numEq_iff]
  constructor
  · rintro ⟨ha, -, rfl | ⟨hzero, hzero'⟩⟩
    · exact ⟨rfl, ha⟩
    · exact ⟨by rw [positiveZero, positiveZero, if_pos hzero, if_pos hzero'], ha⟩
  · rintro ⟨h, ha⟩
    have hb : ¬ b.IsNaN := by rwa [← isNaN_positiveZero, ← h, isNaN_positiveZero]
    refine ⟨ha, hb, ?_⟩
    unfold positiveZero at h
    split at h
    · next hzero =>
      split at h
      · next hzero' => exact .inr ⟨hzero, hzero'⟩
      · exact .inr ⟨hzero, h ▸ rfl⟩
    · next hne =>
      split at h
      · exact absurd (h ▸ rfl) hne
      · exact .inl h

end Double

namespace Value

/-! ## Leaves -/

/-- A value that is neither a list nor a map. -/
def IsLeaf : Value → Prop
  | .list _ => False
  | .map _ => False
  | _ => True

mutual

/-- The parts of a value that are neither lists nor maps, in order.  An object is one of
    them, whatever it holds. -/
def leaves : Value → List Value
  | .list items => itemLeaves items
  | .map ⟨entries⟩ => entryLeaves entries
  | v => [v]

/-- The leaves of items. -/
def itemLeaves : List Value → List Value
  | [] => []
  | v :: vs => leaves v ++ itemLeaves vs

/-- The leaves of the values of entries. -/
def entryLeaves : List (String × Value) → List Value
  | [] => []
  | (_, v) :: rest => leaves v ++ entryLeaves rest

end

mutual

/-- The value with a function applied to its leaves. -/
def mapLeaves (f : Value → Value) : Value → Value
  | .list items => .list (itemsMapLeaves f items)
  | .map ⟨entries⟩ => .map ⟨entriesMapLeaves f entries⟩
  | v => f v

/-- The items, each with the function applied to its leaves. -/
def itemsMapLeaves (f : Value → Value) : List Value → List Value
  | [] => []
  | v :: vs => mapLeaves f v :: itemsMapLeaves f vs

/-- The entries, each with the function applied to the leaves of its value. -/
def entriesMapLeaves (f : Value → Value) : List (String × Value) → List (String × Value)
  | [] => []
  | (k, v) :: rest => (k, mapLeaves f v) :: entriesMapLeaves f rest

end

variable {f g : Value → Value} {v : Value}

theorem leaves_list (items : List Value) : leaves (.list items) = items.flatMap leaves := by
  rw [leaves]
  induction items with
  | nil => rfl
  | cons v vs ih => rw [itemLeaves, List.flatMap_cons, ih]

theorem leaves_map (entries : List (String × Value)) :
    leaves (.map ⟨entries⟩) = entries.flatMap fun e => e.2.leaves := by
  rw [leaves]
  induction entries with
  | nil => rfl
  | cons e rest ih => rw [entryLeaves, List.flatMap_cons, ih]

theorem mapLeaves_list (items : List Value) :
    mapLeaves f (.list items) = .list (items.map (mapLeaves f)) := by
  rw [mapLeaves]
  congr 1
  induction items with
  | nil => rfl
  | cons v vs ih => rw [itemsMapLeaves, List.map_cons, ih]

theorem mapLeaves_map (entries : List (String × Value)) :
    mapLeaves f (.map ⟨entries⟩) = .map ⟨entries.map fun e => (e.1, e.2.mapLeaves f)⟩ := by
  rw [mapLeaves]
  congr 2
  induction entries with
  | nil => rfl
  | cons e rest ih => rw [entriesMapLeaves, List.map_cons, ih]

theorem IsLeaf.leaves_eq (h : v.IsLeaf) : v.leaves = [v] := by
  cases v with
  | list items => exact h.elim
  | map m => exact h.elim
  | _ => rfl

theorem IsLeaf.mapLeaves_eq (h : v.IsLeaf) : v.mapLeaves f = f v := by
  cases v with
  | list items => exact h.elim
  | map m => exact h.elim
  | _ => rfl

/-- **Induction down to the leaves.** -/
theorem leafInduction {motive : Value → Prop} (leaf : ∀ v, v.IsLeaf → motive v)
    (list : ∀ items, (∀ v ∈ items, motive v) → motive (.list items))
    (map : ∀ entries, (∀ e ∈ entries, motive e.2) → motive (.map ⟨entries⟩)) (v : Value) :
    motive v := by
  induction v using walkInduction with
  | list items ih => exact list items ih
  | map entries ih => exact map entries ih
  | _ => exact leaf _ trivial

theorem mapLeaves_congr (h : ∀ w ∈ v.leaves, f w = g w) : v.mapLeaves f = v.mapLeaves g := by
  induction v using leafInduction with
  | leaf v hv =>
    rw [hv.mapLeaves_eq, hv.mapLeaves_eq]
    exact h v (hv.leaves_eq ▸ List.mem_singleton_self v)
  | list items ih =>
    rw [leaves_list] at h
    rw [mapLeaves_list, mapLeaves_list, List.map_congr_left fun v hv =>
      ih v hv fun w hw => h w (List.mem_flatMap.2 ⟨v, hv, hw⟩)]
  | map entries ih =>
    rw [leaves_map] at h
    rw [mapLeaves_map, mapLeaves_map, List.map_congr_left fun e he =>
      congrArg (Prod.mk e.1) (ih e he fun w hw => h w (List.mem_flatMap.2 ⟨e, he, hw⟩))]

theorem leaves_mapLeaves (hf : ∀ v, v.IsLeaf → (f v).IsLeaf) (v : Value) :
    (v.mapLeaves f).leaves = v.leaves.map f := by
  induction v using leafInduction with
  | leaf v hv => rw [hv.mapLeaves_eq, hv.leaves_eq, (hf v hv).leaves_eq, List.map_singleton]
  | list items ih =>
    rw [mapLeaves_list, leaves_list, leaves_list, List.flatMap_map, List.map_flatMap]
    exact List.flatMap_congr ih
  | map entries ih =>
    rw [mapLeaves_map, leaves_map, leaves_map, List.flatMap_map, List.map_flatMap]
    exact List.flatMap_congr ih

theorem mapLeaves_mapLeaves (hf : ∀ v, v.IsLeaf → (f v).IsLeaf) (v : Value) :
    (v.mapLeaves f).mapLeaves g = v.mapLeaves (g ∘ f) := by
  induction v using leafInduction with
  | leaf v hv => rw [hv.mapLeaves_eq, hv.mapLeaves_eq, (hf v hv).mapLeaves_eq, Function.comp]
  | list items ih =>
    rw [mapLeaves_list, mapLeaves_list, mapLeaves_list, List.map_map]
    congr 1
    exact List.map_congr_left ih
  | map entries ih =>
    rw [mapLeaves_map, mapLeaves_map, mapLeaves_map, List.map_map]
    congr 2
    exact List.map_congr_left fun e he => congrArg (Prod.mk e.1) (ih e he)

/-! ## Forms -/

/-- The form of a leaf: a zero without its sign, an object without all but its
    identity. -/
def formLeaf : Value → Value
  | .float d => .float d.positiveZero
  | .object o => .object ⟨o.identity, "", "", none, none, none, none⟩
  | v => v

/-- What equality looks at. -/
def form (v : Value) : Value := v.mapLeaves formLeaf

theorem isLeaf_formLeaf (v : Value) (h : v.IsLeaf) : (formLeaf v).IsLeaf := by
  cases v with
  | list items => exact h.elim
  | map m => exact h.elim
  | _ => trivial

/-- No NaN stands in the value outside of objects. -/
def NaNFree (v : Value) : Prop := ∀ d : Double, .float d ∈ v.leaves → ¬ d.IsNaN

theorem naNFree_form (v : Value) : v.form.NaNFree ↔ v.NaNFree := by
  unfold NaNFree form
  rw [leaves_mapLeaves isLeaf_formLeaf]
  constructor
  · intro h d hd
    rw [← d.isNaN_positiveZero]
    exact h _ (List.mem_map_of_mem hd)
  · intro h d hd
    obtain ⟨w, hw, hwd⟩ := List.mem_map.1 hd
    cases w with
    | float e =>
      obtain rfl := Value.float.inj hwd
      rw [e.isNaN_positiveZero]
      exact h e hw
    | _ => cases hwd

/-! ## Equality -/

theorem IsLeaf.beq_iff {r : Value} (hr : r.IsLeaf) (s : Value) :
    r.beq s = true ↔ r.form = s.form ∧ r.NaNFree := by
  have hform : r.form = formLeaf r := hr.mapLeaves_eq
  rw [hform, NaNFree, hr.leaves_eq]
  cases r with
  | list items => exact hr.elim
  | map m => exact hr.elim
  | float d =>
    cases s <;> simp [beq, form, formLeaf, mapLeaves, Double.numEq_iff_positiveZero]
  | _ => cases s <;> simp [beq, form, formLeaf, mapLeaves]

theorem naNFree_list {items : List Value} : NaNFree (.list items) ↔ ∀ v ∈ items, v.NaNFree := by
  simp only [NaNFree, leaves_list, List.mem_flatMap]
  constructor
  · intro h v hv d hd
    exact h d ⟨v, hv, hd⟩
  · rintro h d ⟨v, hv, hd⟩
    exact h v hv d hd

theorem naNFree_map {entries : List (String × Value)} :
    NaNFree (.map ⟨entries⟩) ↔ ∀ e ∈ entries, e.2.NaNFree := by
  simp only [NaNFree, leaves_map, List.mem_flatMap]
  constructor
  · intro h e he d hd
    exact h d ⟨e, he, hd⟩
  · rintro h d ⟨e, he, hd⟩
    exact h e he d hd

theorem beqItems_iff {xs : List Value}
    (h : ∀ x ∈ xs, ∀ y : Value, x.beq y = true ↔ x.form = y.form ∧ x.NaNFree) (ys : List Value) :
    beqItems xs ys = true ↔ xs.map form = ys.map form ∧ ∀ x ∈ xs, x.NaNFree := by
  induction xs generalizing ys with
  | nil => cases ys <;> simp [beqItems]
  | cons x xs ih =>
    obtain ⟨hx, hxs⟩ := List.forall_mem_cons.1 h
    cases ys with
    | nil => simp [beqItems]
    | cons y ys =>
      rw [beqItems, Bool.and_eq_true, hx, ih hxs, List.map_cons, List.map_cons, List.cons.injEq,
        List.forall_mem_cons]
      exact and_and_and_comm

theorem beqEntries_iff {xs : List (String × Value)}
    (h : ∀ e ∈ xs, ∀ y : Value, e.2.beq y = true ↔ e.2.form = y.form ∧ e.2.NaNFree)
    (ys : List (String × Value)) :
    beqEntries xs ys = true ↔
      (xs.map fun e => (e.1, e.2.form)) = (ys.map fun e => (e.1, e.2.form)) ∧
        ∀ e ∈ xs, e.2.NaNFree := by
  induction xs generalizing ys with
  | nil => cases ys <;> simp [beqEntries]
  | cons e xs ih =>
    obtain ⟨he, hxs⟩ := List.forall_mem_cons.1 h
    cases ys with
    | nil => simp [beqEntries]
    | cons e' ys =>
      obtain ⟨k, x⟩ := e
      obtain ⟨l, y⟩ := e'
      simp only [beqEntries, Bool.and_eq_true, beq_iff_eq, he y, ih hxs, List.map_cons,
        List.cons.injEq, Prod.mk.injEq, List.forall_mem_cons]
      tauto

/-- **Values are equal iff they have the same form and no NaN.** -/
theorem beq_iff (r s : Value) : (r == s) = true ↔ r.form = s.form ∧ r.NaNFree := by
  show r.beq s = true ↔ _
  induction r using leafInduction generalizing s with
  | leaf r hr => exact hr.beq_iff s
  | list xs ih =>
    rw [naNFree_list, form, mapLeaves_list]
    cases s with
    | list ys =>
      rw [form, mapLeaves_list, Value.list.injEq, beq]
      exact beqItems_iff ih ys
    | _ => simp [beq, form, mapLeaves, formLeaf]
  | map xs ih =>
    rw [naNFree_map, form, mapLeaves_map]
    cases s with
    | map m =>
      obtain ⟨ys⟩ := m
      rw [form, mapLeaves_map, Value.map.injEq, OrderedMap.mk.injEq, beq]
      exact beqEntries_iff ih ys
    | _ => simp [beq, form, mapLeaves, formLeaf]

theorem keys_eq_of_form_eq {m n : OrderedMap Value} (h : form (.map m) = form (.map n)) :
    m.keys = n.keys := by
  obtain ⟨xs⟩ := m
  obtain ⟨ys⟩ := n
  rw [form, form, mapLeaves_map, mapLeaves_map, Value.map.injEq, OrderedMap.mk.injEq] at h
  simpa [OrderedMap.keys, Function.comp_def] using congrArg (List.map Prod.fst) h

/-! ## What is written -/

/-- A zero without its sign; other leaves as they are. -/
def positiveZeroLeaf : Value → Value
  | .float d => .float d.positiveZero
  | v => v

/-- The value with each zero outside of objects replaced by the positive one. -/
def positiveZeros (v : Value) : Value := v.mapLeaves positiveZeroLeaf

/-- The objects in the value are those of a host, which keeps one object under each
    identity. -/
def DrawnFrom (host : Nat → HostObject Value) (v : Value) : Prop :=
  ∀ o : HostObject Value, .object o ∈ v.leaves → o = host o.identity

/-- The object of the host for its identity. -/
def revive (host : Nat → HostObject Value) : Value → Value
  | .object o => .object (host o.identity)
  | v => v

/-- The form and the host tell the value but for the signs of zeros. -/
theorem positiveZeros_eq {host : Nat → HostObject Value} {v : Value} (h : v.DrawnFrom host) :
    v.positiveZeros = v.form.mapLeaves (revive host) := by
  rw [form, mapLeaves_mapLeaves isLeaf_formLeaf, positiveZeros]
  refine mapLeaves_congr fun w hw => ?_
  cases w with
  | object o => exact congrArg Value.object (h o hw)
  | _ => rfl

/-- **Equality is a partial equivalence that writing respects.**

    It is symmetric and transitive, and a value equals itself iff no NaN stands in it
    outside of objects.  Equal values with objects of one host have the same literal or
    the same fault, and the same events are reported, once each zero outside of objects
    has no sign.  Equal maps have the same keys in the same order. -/
theorem beq_partial_equivalence :
    (∀ r s : Value, r == s → s == r) ∧
    (∀ r s t : Value, r == s → s == t → r == t) ∧
    (∀ r : Value, r == r ↔ ∀ d : Double, .float d ∈ r.leaves → ¬ d.IsNaN) ∧
    (∀ (host : Nat → HostObject Value) (r s : Value), r.DrawnFrom host → s.DrawnFrom host →
      r == s → r.positiveZeros.emission = s.positiveZeros.emission) ∧
    ∀ m n : OrderedMap Value, Value.map m == Value.map n → m.keys = n.keys := by
  refine ⟨fun r s h => ?_, fun r s t h h' => ?_, fun r => ?_, fun host r s hr hs h => ?_,
    fun m n h => ?_⟩
  · obtain ⟨hform, hfree⟩ := (beq_iff r s).1 h
    rw [← naNFree_form, hform, naNFree_form] at hfree
    exact (beq_iff s r).2 ⟨hform.symm, hfree⟩
  · obtain ⟨hform, hfree⟩ := (beq_iff r s).1 h
    obtain ⟨hform', -⟩ := (beq_iff s t).1 h'
    exact (beq_iff r t).2 ⟨hform.trans hform', hfree⟩
  · rw [beq_iff]
    exact and_iff_right rfl
  · obtain ⟨hform, -⟩ := (beq_iff r s).1 h
    rw [positiveZeros_eq hr, positiveZeros_eq hs, hform]
  · exact keys_eq_of_form_eq ((beq_iff _ _).1 h).1

/-- An object that is written as a text of its own. -/
def stamp : HostObject Value where
  identity := 7
  typeName := "Stamp"
  debugText := ""
  rendered := some "now()"

/-- A map of a zero with this sign and a list of an object. -/
def signedZero (negative : Bool) : Value :=
  .map ⟨[("zero", .float (.zero negative)), ("items", .list [.object stamp])]⟩

theorem drawnFrom_signedZero (negative : Bool) :
    (signedZero negative).DrawnFrom fun _ => stamp := by
  intro o ho
  have hleaves : (signedZero negative).leaves = [.float (.zero negative), .object stamp] := rfl
  rw [hleaves] at ho
  simpa using ho

theorem beq_partial_equivalence_signedZero :
    signedZero true == signedZero false ∧ signedZero false == signedZero true ∧
      signedZero true == signedZero true ∧
      (signedZero true).literal = .ok "{zero: -0, items: [now()]}" ∧
      (signedZero false).literal = .ok "{zero: 0, items: [now()]}" ∧
      (signedZero true).positiveZeros.emission = (signedZero false).positiveZeros.emission ∧
      ¬ Value.list [.float .nan] == Value.list [.float .nan] := by
  obtain ⟨hsymm, htrans, hrefl, hemission, -⟩ := beq_partial_equivalence
  have hequal : signedZero true == signedZero false := by decide +kernel
  have hequal' := hsymm _ _ hequal
  refine ⟨hequal, hequal', htrans _ _ _ hequal hequal', by decide +kernel, by decide +kernel,
    hemission _ _ _ (drawnFrom_signedZero true) (drawnFrom_signedZero false) hequal, fun h => ?_⟩
  exact (hrefl _).1 h .nan (List.mem_singleton_self _) (by decide)

end Value

end ScriptLiteral
