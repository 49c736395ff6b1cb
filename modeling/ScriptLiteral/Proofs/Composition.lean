/-
  Script literals — the literal of a value from the literals of its parts.

  Writing appends to a draft, and what it appends does not depend on the draft.  So the
  literal of a value is made of the literals of its parts, and of the value itself only
  the brackets, the commas and the keys are left.

  * `run_emit_eq_ok_iff` and `run_emit_eq_error_iff`: what writing a value does to a
    draft, by its literal;
  * `literal_list`, `literal_map` and `literal_object` are the equations of the literal:
    the parts are written in order, and the first that has no literal is the outcome;
  * `Frame` is a value with a hole right inside it, `fillAll` a nest of frames around a
    value; `Frame.exists_surroundings`: around the literal of what fills the hole, a frame
    always writes the same;
  * `literal_fillAll`: so does a nest of frames.
-/
import ScriptLiteral.Proofs.Emission

namespace ScriptLiteral

/-! ## Results behind a walk -/

/-- A result, unless the walk before it meets a fault. -/
def behind {α : Type} (vs : List Visit) (a : α) : Except Fault α :=
  match firstFault vs with
  | none => .ok a
  | some f => .error f

section
variable {α β : Type}

theorem map_behind (vs : List Visit) (a : α) (f : α → β) :
    (behind vs a).map f = behind vs (f a) := by
  unfold behind
  cases firstFault vs <;> rfl

theorem mapM_behind (visits : α → List Visit) (print : α → β) (as : List α) :
    as.mapM (fun a => behind (visits a) (print a)) =
      behind (as.flatMap visits) (as.map print) := by
  induction as with
  | nil => rfl
  | cons a as ih =>
    rw [List.mapM_cons, ih]
    simp only [behind, List.flatMap_cons, firstFault_append]
    cases firstFault (visits a) with
    | some f => rfl
    | none => cases firstFault (as.flatMap visits) <;> rfl

theorem exists_mapM_eq_ok {ε : Type} {f : α → Except ε β} {as : List α}
    (h : ∀ a ∈ as, ∃ b, f a = .ok b) : ∃ bs, as.mapM f = .ok bs := by
  induction as with
  | nil => exact ⟨[], rfl⟩
  | cons a as ih =>
    obtain ⟨b, hb⟩ := h a (List.mem_cons_self ..)
    obtain ⟨bs, hbs⟩ := ih fun a' ha' => h a' (List.mem_cons_of_mem _ ha')
    refine ⟨b :: bs, ?_⟩
    rw [List.mapM_cons, hb, hbs]
    rfl

end

namespace Value

open Literal

/-! ## Drafts -/

/-- Writing a value either appends its literal and reports its events, or fails with its
    fault. -/
theorem run_emit (v : Value) (d : Draft) :
    (∃ t, v.literal = .ok t ∧
      (emit v).run d = .ok () ⟨d.text ++ t, d.events ++ v.emission.events.toArray⟩) ∨
    ∃ f d', v.literal = .error f ∧ (emit v).run d = .error f d' := by
  obtain ⟨⟨text, events⟩, hevents, hwrites⟩ := emit_writes v d
  rw [literal_eq, emission_eq]
  cases hfault : firstFault v.visits with
  | some f =>
    rw [hfault] at hwrites
    exact .inr ⟨f, _, rfl, hwrites⟩
  | none =>
    rw [hfault] at hwrites
    obtain ⟨hrun, htext⟩ := hwrites
    have htext' : text = d.text ++ v.canon.text := by
      rw [← String.toList_inj, String.toList_append, Term.text, String.toList_ofList]
      exact htext
    have hevents' : events = d.events ++ (reports v.visits).toArray := by
      rw [← Array.toList_inj, Array.toList_append]
      exact hevents
    rw [htext', hevents'] at hrun
    exact .inl ⟨_, rfl, hrun⟩

/-- **Writing a value appends its literal**, whatever was written before, and reports
    what is reported for the value alone. -/
theorem run_emit_eq_ok_iff {v : Value} {d d' : Draft} :
    (emit v).run d = .ok () d' ↔
      ∃ t, v.literal = .ok t ∧ d' = ⟨d.text ++ t, d.events ++ v.emission.events.toArray⟩ := by
  rcases run_emit v d with ⟨t, ht, hrun⟩ | ⟨f, d₁, hf, hrun⟩
  · simp [ht, hrun, eq_comm]
  · simp [hf, hrun]

theorem run_emit_eq_error_iff {v : Value} {d : Draft} {f : Fault} :
    (∃ d', (emit v).run d = .error f d') ↔ v.literal = .error f := by
  rcases run_emit v d with ⟨t, ht, hrun⟩ | ⟨g, d₁, hg, hrun⟩
  · simp [ht, hrun]
  · simp [hg, hrun]

/-! ## Equations of the literal -/

/-- Texts with a comma between any two, inside brackets. -/
def enclosed (left right : String) (texts : List String) : String :=
  left ++ ", ".intercalate texts ++ right

/-- An entry of an object literal: the key, a colon and the literal of the value. -/
def entryLiteral (e : String × Value) : Except Fault String :=
  e.2.literal.map fun t => key e.1 ++ ": " ++ t

/-- The literal of what an object resolves to. -/
def resolutionLiteral : Resolution Value → Except Fault String
  | .substitute (.string source) => .ok source
  | .substitute v => v.literal
  | .exported v => v.literal
  | .rendered source => .ok source
  | .instant t => .ok (ofTimestamp t)

theorem literal_eq_behind (v : Value) : v.literal = behind v.visits v.canon.text := literal_eq v

theorem entryLiteral_eq_behind (e : String × Value) :
    entryLiteral e = behind e.2.visits (key e.1 ++ ": " ++ e.2.canon.text) := by
  rw [entryLiteral, literal_eq_behind, map_behind]

theorem resolutionLiteral_eq_behind (r : Resolution Value) :
    resolutionLiteral r = behind (resolutionVisits r) (resolutionCanon r).text := by
  have hverbatim : ∀ source, (Term.verbatim source).text = source := by
    intro source
    rw [Term.text, Term.chars, String.ofList_toList]
  cases r with
  | substitute v =>
    -- a text is source text
    cases v with
    | string source => exact congrArg Except.ok (hverbatim source).symm
    | _ => exact literal_eq_behind _
  | exported v => exact literal_eq_behind v
  | rendered source => exact congrArg Except.ok (hverbatim source).symm
  | instant t =>
    refine congrArg Except.ok ?_
    rw [resolutionCanon, Term.text, chars_date, String.ofList_toList]

theorem text_list (items : List Value) :
    (Value.list items).canon.text = enclosed "[" "]" (items.map fun v => v.canon.text) := by
  rw [← String.toList_inj, Term.text, String.toList_ofList, chars_list]
  simp [enclosed, Term.separated, Term.text, Function.comp_def]

theorem text_record (entries : List (String × Value)) :
    (Term.record (entries.map fun e => (foldText e.1, e.2.canon))).text =
      enclosed "\x7b" "\x7d" (entries.map fun e => key e.1 ++ ": " ++ e.2.canon.text) := by
  have hentry : ∀ e : String × Value, Term.pairChars (foldText e.1, e.2.canon) =
      (key e.1 ++ ": " ++ e.2.canon.text).toList := by
    intro e
    rw [Term.pairChars, ← Term.toList_key_eq]
    simp [Term.text]
  rw [← String.toList_inj, Term.text, String.toList_ofList, Term.chars, Term.entryChars_eq_map]
  simp [enclosed, Term.separated, hentry, Function.comp_def]

/-- **The literal of a list is made of the literals of its items.** -/
theorem literal_list (items : List Value) :
    (Value.list items).literal = (items.mapM literal).map (enclosed "[" "]") := by
  rw [literal_eq_behind, visits, itemVisits_eq_flatMap, text_list, funext literal_eq_behind,
    mapM_behind, map_behind]

/-- **The literal of a map is made of the literals of its values**, with the keys unless
    the map is indexed. -/
theorem literal_map (m : OrderedMap Value) :
    (Value.map m).literal =
      if m.isIndexed then (m.values.mapM literal).map (enclosed "[" "]")
      else (m.entries.mapM entryLiteral).map (enclosed "\x7b" "\x7d") := by
  obtain ⟨entries⟩ := m
  split
  · next hm => rw [← literal_list, literal, literal, emission, emission, emit_map_of_isIndexed hm]
  · next hm =>
    rw [literal_eq_behind, visits, entryVisits_eq_flatMap, canon_map, if_neg hm, text_record,
      funext entryLiteral_eq_behind, mapM_behind, map_behind]

theorem mapM_singleton_enclosed {α : Type} (write : α → Except Fault String) (a : α)
    (left right : String) :
    ([a].mapM write).map (enclosed left right) = (write a).map fun t => left ++ t ++ right := by
  rw [List.mapM_cons, List.mapM_nil]
  cases write a with
  | error f => rfl
  | ok t =>
    show Except.ok (enclosed left right [t]) = .ok (left ++ t ++ right)
    rw [enclosed, String.intercalate_singleton]

/-- **The literal of an object is the literal of what it resolves to.** -/
theorem literal_object (o : HostObject Value) :
    (Value.object o).literal =
      match o.resolution? with
      | some r => resolutionLiteral r
      | none => .error (.unsupportedObject o.typeName) := by
  rw [literal_eq_behind, visits_object, canon_object]
  cases o.resolution? with
  | none => rfl
  | some r => exact (resolutionLiteral_eq_behind r).symm

/-! ## Frames -/

/-- A value with a hole right inside it. -/
inductive Frame where
  | list (before after : List Value)
  | map (before : List (String × Value)) (key : String) (after : List (String × Value))
  /-- An object that exports what fills the hole, with whatever other capabilities. -/
  | exported (o : HostObject Value)

namespace Frame

/-- A value put into the hole. -/
def fill (v : Value) : Frame → Value
  | list before after => .list (before ++ v :: after)
  | map before key after => .map ⟨before ++ (key, v) :: after⟩
  | exported o => .object { o with substitute := none, exported := some v }

/-- The values beside the hole. -/
def siblings : Frame → List Value
  | list before after => before ++ after
  | map before _ after => (before ++ after).map (·.2)
  | exported _ => []

end Frame

/-- A value inside a nest of frames, the innermost first. -/
def fillAll (v : Value) (frames : List Frame) : Value := frames.foldl Frame.fill v

/-- Around one of several texts, the others always make the same. -/
theorem exists_intercalate_eq (separator : String) (before after : List String) :
    ∃ left right, ∀ t,
      separator.intercalate (before ++ t :: after) = left ++ t ++ right := by
  have hright : ∃ right, ∀ t, separator.intercalate (t :: after) = t ++ right := by
    cases after with
    | nil => exact ⟨"", by simp⟩
    | cons u after => exact ⟨separator ++ separator.intercalate (u :: after),
        by simp [String.append_assoc]⟩
  obtain ⟨right, hright⟩ := hright
  rcases before with _ | ⟨u, before⟩
  · exact ⟨"", right, by simp [hright]⟩
  · refine ⟨separator.intercalate (u :: before) ++ separator, right, fun t => ?_⟩
    rw [String.intercalate_append_of_ne_nil (by simp) (by simp), hright]
    simp [String.append_assoc]

theorem exists_mapM_enclosed_eq {α : Type} {write : α → Except Fault String}
    {before after : List α} (left right : String)
    (h : ∀ a ∈ before ++ after, ∃ t, write a = .ok t) :
    ∃ pre post, ∀ a, ((before ++ a :: after).mapM write).map (enclosed left right) =
      (write a).map fun t => pre ++ t ++ post := by
  obtain ⟨ts, hts⟩ := exists_mapM_eq_ok fun a ha => h a (List.mem_append_left _ ha)
  obtain ⟨us, hus⟩ := exists_mapM_eq_ok fun a ha => h a (List.mem_append_right _ ha)
  obtain ⟨pre, post, hall⟩ := exists_intercalate_eq ", " ts us
  refine ⟨left ++ pre, post ++ right, fun a => ?_⟩
  rw [List.mapM_append, hts, List.mapM_cons, hus]
  cases write a with
  | error f => rfl
  | ok t =>
    show Except.ok (enclosed left right (ts ++ t :: us)) = .ok (left ++ pre ++ t ++ (post ++ right))
    rw [enclosed, hall]
    simp [String.append_assoc]

/-- **Around what fills the hole, a frame always writes the same**, if the values beside
    the hole have literals. -/
theorem Frame.exists_surroundings (frame : Frame)
    (h : ∀ w ∈ frame.siblings, ∃ t, w.literal = .ok t) :
    ∃ pre post, ∀ v, (frame.fill v).literal = v.literal.map fun t => pre ++ t ++ post := by
  cases frame with
  | list before after =>
    obtain ⟨pre, post, hall⟩ := exists_mapM_enclosed_eq "[" "]" h
    refine ⟨pre, post, fun v => ?_⟩
    rw [fill, literal_list, hall]
  | map before k after =>
    -- whether the map is indexed does not depend on what fills the hole
    have hindexed : ∀ v, (OrderedMap.mk (before ++ (k, v) :: after)).isIndexed =
        (OrderedMap.mk (before ++ (k, Value.null) :: after)).isIndexed := by
      intro v
      simp [OrderedMap.isIndexed, OrderedMap.keys]
    simp only [fill, literal_map, hindexed]
    split
    · rw [siblings, List.map_append] at h
      obtain ⟨pre, post, hall⟩ := exists_mapM_enclosed_eq "[" "]" h
      refine ⟨pre, post, fun v => ?_⟩
      rw [OrderedMap.values, List.map_append, List.map_cons, hall]
    · have hentries : ∀ e ∈ before ++ after, ∃ t, entryLiteral e = .ok t := by
        intro e he
        obtain ⟨t, ht⟩ := h e.2 (List.mem_map_of_mem he)
        exact ⟨_, by rw [entryLiteral, ht]; rfl⟩
      obtain ⟨pre, post, hall⟩ := exists_mapM_enclosed_eq "\x7b" "\x7d" hentries
      refine ⟨pre ++ (key k ++ ": "), post, fun v => ?_⟩
      rw [hall, entryLiteral]
      cases v.literal with
      | error f => rfl
      | ok t => simp [Except.map, String.append_assoc]
  | exported o =>
    refine ⟨"", "", fun v => ?_⟩
    have hliteral : (fill v (.exported o)).literal = v.literal := by
      rw [fill, literal_object]
      rfl
    rw [hliteral]
    cases v.literal <;> simp [Except.map]

/-- **Writing is compositional.**

    Writing a value to a draft succeeds iff the value has a literal; then the literal is
    appended, and the events of the value alone.  It fails with a fault iff the literal does.

    If all values beside the holes of a nest of frames have literals, the literal of a value
    inside the nest is that of the value between two texts, which depend on the nest only;
    and there is none, for the same reason, iff the value has none.

    The literals of lists and of maps are the literals of their parts with commas between
    them, in brackets. -/
theorem literal_fillAll {frames : List Frame}
    (h : ∀ frame ∈ frames, ∀ w ∈ frame.siblings, ∃ t, w.literal = .ok t) :
    (∀ (v : Value) (d : Draft),
      (∀ d', (emit v).run d = .ok () d' ↔ ∃ t, v.literal = .ok t ∧
        d' = ⟨d.text ++ t, d.events ++ v.emission.events.toArray⟩) ∧
      ∀ f, (∃ d', (emit v).run d = .error f d') ↔ v.literal = .error f) ∧
    (∃ pre post, ∀ v, (fillAll v frames).literal = v.literal.map fun t => pre ++ t ++ post) ∧
    (∀ items : List Value,
      (Value.list items).literal = (items.mapM literal).map (enclosed "[" "]")) ∧
    ∀ m : OrderedMap Value, (Value.map m).literal =
      if m.isIndexed then (m.values.mapM literal).map (enclosed "[" "]")
      else (m.entries.mapM entryLiteral).map (enclosed "\x7b" "\x7d") := by
  refine ⟨fun v d => ⟨fun d' => run_emit_eq_ok_iff, fun f => run_emit_eq_error_iff⟩, ?_,
    literal_list, literal_map⟩
  induction frames with
  | nil =>
    refine ⟨"", "", fun v => ?_⟩
    show v.literal = _
    cases v.literal <;> simp [Except.map]
  | cons frame frames ih =>
    rcases List.forall_mem_cons.1 h with ⟨hframe, hframes⟩
    obtain ⟨pre, post, hinner⟩ := frame.exists_surroundings hframe
    obtain ⟨pre', post', houter⟩ := ih hframes
    refine ⟨pre' ++ pre, post ++ post', fun v => ?_⟩
    rw [fillAll, List.foldl_cons, ← fillAll, houter, hinner]
    cases v.literal <;> simp [Except.map, String.append_assoc]

/-- An export inside an indexed map inside a list inside a map that is none; beside the
    holes stand a text, source text, a date and a list in map form. -/
def deepFrames : List Frame :=
  [.exported { identity := 0, typeName := "Row", debugText := "", rendered := some "row" },
    .map [("0", .object (.ofDate 1 .utc ⟨-1, 999500⟩))] "1" [],
    .list [.string "it's"] [.object
      { identity := 2, typeName := "Callback", debugText := "", rendered := some "f()" }],
    .map [("a", .null)] "new" [("01", .map ⟨[("0", .bool true)]⟩)]]

theorem literal_fillAll_deepFrames :
    (∀ frame ∈ deepFrames, ∀ w ∈ frame.siblings, ∃ t, w.literal = .ok t) ∧
      ∃ pre post, ∀ v, (fillAll v deepFrames).literal = v.literal.map fun t => pre ++ t ++ post := by
  have hsiblings : ∀ frame ∈ deepFrames, ∀ w ∈ frame.siblings, ∃ t, w.literal = .ok t := by
    simp only [deepFrames, Frame.siblings, List.forall_mem_cons]
    simp only [List.append_nil, List.nil_append, List.cons_append, List.map_cons, List.map_nil,
      List.forall_mem_cons, List.not_mem_nil, false_implies, implies_true, and_true, true_and]
    exact ⟨⟨_, rfl⟩, ⟨⟨_, rfl⟩, _, rfl⟩, ⟨_, rfl⟩, _, rfl⟩
  exact ⟨hsiblings, (literal_fillAll hsiblings).2.1⟩

end Value

end ScriptLiteral
