/-
  Script literals — what a literal keeps of its value.

  A value is legible if its walk meets neither a fault nor source text of the
  host.  `literal_reads_back`: a legible value has a literal, the reader takes the
  whole of it and finds the term of the value; so two legible values have the same
  literal iff they have the same term.
-/
import ScriptLiteral.Proofs.Emission
import ScriptLiteral.Proofs.Reader

namespace ScriptLiteral

/-- An object that is resolved to something else than source text. -/
def Visit.isResolved : Visit → Bool
  | resolved .. => true
  | verbatim _ => false
  | fault _ => false

namespace Value

/-- The walk meets neither a fault nor source text of the host. -/
def Legible (v : Value) : Prop := ∀ x ∈ v.visits, x.isResolved = true

instance (v : Value) : Decidable v.Legible := inferInstanceAs (Decidable (∀ x ∈ _, _))

theorem Legible.firstFault {v : Value} (h : v.Legible) : firstFault v.visits = none := by
  apply List.findSome?_eq_none_iff.2
  intro x hx
  cases x with
  | fault f => exact absurd (h _ hx) Bool.false_ne_true
  | _ => rfl

theorem Legible.literal_eq {v : Value} (h : v.Legible) : v.literal = .ok v.canon.text := by
  rw [Value.literal_eq, h.firstFault]

theorem legible_list {items : List Value} :
    (Value.list items).Legible ↔ ∀ v ∈ items, v.Legible := by
  unfold Legible
  rw [visits, itemVisits_eq_flatMap]
  simp only [List.mem_flatMap]
  constructor
  · intro h v hv x hx
    exact h x ⟨v, hv, hx⟩
  · rintro h x ⟨v, hv, hx⟩
    exact h v hv x hx

theorem legible_map {entries : List (String × Value)} :
    (Value.map ⟨entries⟩).Legible ↔ ∀ e ∈ entries, e.2.Legible := by
  unfold Legible
  rw [visits, entryVisits_eq_flatMap]
  simp only [List.mem_flatMap]
  constructor
  · intro h e he x hx
    exact h x ⟨e, he, hx⟩
  · rintro h x ⟨e, he, hx⟩
    exact h e he x hx

theorem readable_floatTerm (d : Double) : (floatTerm d).Readable := by
  unfold floatTerm
  split
  · exact .nan
  · split
    · exact .number d.decimal
    · exact .infinity d.negative

theorem readable_resolutionCanon {r : Resolution Value}
    (h : ∀ x ∈ resolutionVisits r, x.isResolved = true)
    (ih : ∀ v, r.nested? = some v → v.Legible → v.canon.Readable) :
    (resolutionCanon r).Readable := by
  cases r with
  | substitute v =>
    cases v with
    | string source => exact absurd (h _ (List.mem_singleton_self _)) Bool.false_ne_true
    | _ => exact ih _ rfl h
  | exported v => exact ih v rfl h
  | rendered source => exact absurd (h _ (List.mem_singleton_self _)) Bool.false_ne_true
  | instant t => exact .date t.totalMicros

/-- **The term of a legible value can be read.** -/
theorem Legible.readable_canon {v : Value} (h : v.Legible) : v.canon.Readable := by
  induction v using walkInduction with
  | null => exact .null
  | bool b => exact .bool b
  | integer i => exact .number (.ofInt i.toInt)
  | float d => exact readable_floatTerm d
  | string s => exact .string (foldText s)
  | list items ih =>
    rw [canon, itemCanons_eq_map]
    refine .list fun t ht => ?_
    obtain ⟨v, hv, rfl⟩ := List.mem_map.1 ht
    exact ih v hv (legible_list.1 h v hv)
  | map entries ih =>
    have hall : ∀ e ∈ entries, e.2.canon.Readable := fun e he => ih e he (legible_map.1 h e he)
    rw [Literal.canon_map]
    split
    · rw [canon, itemCanons_eq_map]
      refine .list fun t ht => ?_
      obtain ⟨v, hv, rfl⟩ := List.mem_map.1 ht
      obtain ⟨e, he, rfl⟩ := List.mem_map.1 hv
      exact hall e he
    · refine .record fun p hp => ?_
      obtain ⟨e, he, rfl⟩ := List.mem_map.1 hp
      exact hall e he
  | object o ih =>
    unfold Legible at h
    rw [visits_object] at h
    rw [canon_object]
    cases ho : o.resolution? with
    | none =>
      rw [ho] at h
      exact absurd (h _ (List.mem_singleton_self _)) Bool.false_ne_true
    | some r =>
      rw [ho] at h
      exact readable_resolutionCanon (fun x hx => h x (List.mem_cons_of_mem _ hx))
        fun v hv => ih r v ho hv
  | resource name => exact absurd (h _ (List.mem_singleton_self _)) Bool.false_ne_true

/-- **A literal keeps the term of its value and nothing else.**  The reader takes
    the whole literal of a legible value and finds the term of the value; hence
    legible values have the same literal iff they have the same term. -/
theorem literal_reads_back (v : Value) (h : v.Legible) :
    (∃ t, v.literal = .ok t ∧ Term.read t.toList = some (v.canon, [])) ∧
      ∀ w : Value, w.Legible → (v.literal = w.literal ↔ v.canon = w.canon) := by
  have hread : ∀ u : Value, u.Legible → Term.read u.canon.text.toList = some (u.canon, []) := by
    intro u hu
    rw [Term.text, String.toList_ofList]
    exact Term.read_chars hu.readable_canon
  refine ⟨⟨_, h.literal_eq, hread v h⟩, fun w hw => ?_⟩
  rw [h.literal_eq, hw.literal_eq]
  constructor
  · intro e
    have := hread v h
    rw [Except.ok.inj e, hread w hw] at this
    exact (congrArg Prod.fst (Option.some.inj this)).symm
  · intro e
    rw [e]

/-- An object that exports a list, two dates, a map and a list in map form. -/
def mixed : Value :=
  .list [.object { identity := 0, typeName := "Clock", debugText := "",
                   instant := some ⟨-1, 999500⟩, exported := some (.list [.null]) },
    .object (.ofDate 1 .utc ⟨-1, 999500⟩), .object (.ofDate 2 .naive ⟨0, 1000000⟩),
    .map ⟨[("a", .string "it's\r\n"), ("new", .float .nan)]⟩, .map ⟨[("0", .bool true)]⟩]

/-- The same as `mixed`, written more plainly. -/
def unmixed : Value :=
  .list [.list [.null],
    .object (.ofDate 3 .fixedOffset ⟨-2, 1999500⟩), .object (.ofDate 4 .utc ⟨1, 0⟩),
    .map ⟨[("a", .string "it's\n"), ("new", .float .nan)]⟩, .list [.bool true]]

theorem literal_reads_back_mixed : (mixed.Legible ∧ unmixed.Legible) ∧
    (∃ t, mixed.literal = .ok t ∧ Term.read t.toList = some (mixed.canon, [])) ∧
      (mixed.literal = unmixed.literal ↔ mixed.canon = unmixed.canon) := by
  have hmixed : mixed.Legible := by decide
  have hunmixed : unmixed.Legible := by decide
  obtain ⟨hread, hsame⟩ := literal_reads_back mixed hmixed
  exact ⟨⟨hmixed, hunmixed⟩, hread, hsame unmixed hunmixed⟩

end Value

end ScriptLiteral
