/-
  Script literals — data that describe a value in different ways.

  Much of what a datum says of itself does not show in its value: which kind of sequence
  it is, the names of types, whether an optional or wrapped datum is one, the width of an
  integer.  Data that differ in nothing else have the same value or the same fault,
  wherever in a tree they stand.

  * `Equation a b`: the two data say the same in different ways;
  * `Layer` is a datum with a hole for one of the data right inside it, `fillAll` a
    nest of layers around a datum: the place of a node in a tree;
  * `Restates` is one equation used at one node, `Equivalent` any number of them in
    either direction;
  * `Equation.toValue_eq` and `Layer.toValue_fill_congr` are the two halves of
    `toValue_eq_of_equivalent`.
-/
import Mathlib
import ScriptLiteral.Datum.Convert
import ScriptLiteral.Proofs.Widening

namespace ScriptLiteral

namespace Datum

/-! ## Equations -/

/-- The fields of a record as calls of a map: an entry for each that is not skipped. -/
def fieldEntries (fields : List (String × Option Datum)) : List (MapCall Datum) :=
  fields.filterMap fun field => field.2.map (.entry (.text field.1))

/-- Bytes as data of their own. -/
def byteItems (bs : List UInt8) : List Datum := bs.map fun b => .integer (.ofUInt8 b)

/-- The equations between data. -/
inductive Equation : Datum → Datum → Prop where
  | tuple (items : List Datum) : Equation (.tuple items) (.sequence items)
  | namedTuple (name : String) (items : List Datum) :
      Equation (.namedTuple name items) (.sequence items)
  | tupleVariant (name variant : String) (items : List Datum) :
      Equation (.tupleVariant name variant items) (.wrapperVariant name variant (.sequence items))
  | record (name : String) (fields : List (String × Option Datum)) :
      Equation (.record name fields) (.map (fieldEntries fields))
  | recordVariant (name variant inner : String) (fields : List (String × Option Datum)) :
      Equation (.recordVariant name variant fields)
        (.wrapperVariant name variant (.record inner fields))
  /-- An entry is a key and then a value. -/
  | entry (before : List (MapCall Datum)) (k v : Datum) (after : List (MapCall Datum)) :
      Equation (.map (before ++ .entry k v :: after)) (.map (before ++ .key k :: .value v :: after))
  | present (d : Datum) : Equation (.present d) d
  | wrapper (name : String) (d : Datum) : Equation (.wrapper name d) d
  | absent : Equation .absent .unit
  | unitRecord (name : String) : Equation (.unitRecord name) .unit
  | unitVariant (name variant : String) : Equation (.unitVariant name variant) (.text variant)
  | char (c : Char) : Equation (.char c) (.text c.toString)
  | display (s : String) : Equation (.display s) (.text s)
  | bytes (bs : List UInt8) : Equation (.bytes bs) (.sequence (byteItems bs))
  /-- Integers of two types, equal as integers. -/
  | integer {i j : MachineInt} (h : i.val = j.val) : Equation (.integer i) (.integer j)
  | single {s : Single} {d : Double} (h : s.SameNumber d) : Equation (.single s) (.double d)

theorem itemValues_byteItems (bs : List UInt8) :
    itemValues (byteItems bs) = .ok (bs.map fun b => .ofMachineInt (.ofUInt8 b)) := by
  induction bs with
  | nil => rfl
  | cons b bs ih =>
    rw [byteItems, List.map_cons, itemValues, ← byteItems, ih]
    rfl

theorem runCalls_fieldEntries (fields : List (String × Option Datum)) (m : OrderedMap Value) :
    runCalls ⟨m, none⟩ (fieldEntries fields) =
      insertFields m fields >>= fun m' => pure ⟨m', none⟩ := by
  induction fields generalizing m with
  | nil => rw [fieldEntries, List.filterMap_nil, runCalls, insertFields]; rfl
  | cons field fields ih =>
    obtain ⟨name, _ | d⟩ := field
    · -- a skipped field is no entry
      rw [insertFields, ← ih]
      rfl
    · have hentries : fieldEntries ((name, some d) :: fields) =
          .entry (.text name) d :: fieldEntries fields := rfl
      rw [hentries, runCalls_text_entry_cons]
      simp only [insertFields, bind_assoc, ih]

/-- **The two sides of an equation have the same value or the same fault.** -/
theorem Equation.toValue_eq {a b : Datum} (h : Equation a b) : a.toValue = b.toValue := by
  cases h with
  | tuple items | namedTuple name items => simp only [toValue]
  | tupleVariant name variant items => simp only [toValue, bind_assoc, pure_bind]
  | record name fields =>
    simp only [toValue, MapBuilder.empty, runCalls_fieldEntries, bind_assoc, pure_bind]
  | recordVariant name variant inner fields => simp only [toValue, bind_assoc, pure_bind]
  | entry before k v after => simp only [toValue, runCalls_append, runCalls_entry_cons]
  | present d | wrapper name d => rw [toValue]
  | absent | unitRecord name | unitVariant name variant | char c | display s => rfl
  | bytes bs =>
    rw [toValue, toValue, itemValues_byteItems]
    rfl
  | integer hval => rw [toValue, toValue, Value.ofMachineInt, hval, ← Value.ofMachineInt]
  | @single s d hsame =>
    rw [toValue, toValue, Value.ofSingle, hsame.unique s.sameNumber_toDouble]

/-! ## Places in a tree -/

/-- A datum with a hole for one of the data right inside it. -/
inductive Layer where
  | present
  | wrapper (name : String)
  | wrapperVariant (name variant : String)
  | sequence (before after : List Datum)
  | tuple (before after : List Datum)
  | namedTuple (name : String) (before after : List Datum)
  | tupleVariant (name variant : String) (before after : List Datum)
  | record (name : String) (before : List (String × Option Datum)) (field : String)
      (after : List (String × Option Datum))
  | recordVariant (name variant : String) (before : List (String × Option Datum))
      (field : String) (after : List (String × Option Datum))
  | key (before after : List (MapCall Datum))
  | value (before after : List (MapCall Datum))
  | entryKey (before : List (MapCall Datum)) (v : Datum) (after : List (MapCall Datum))
  | entryValue (before : List (MapCall Datum)) (k : Datum) (after : List (MapCall Datum))

/-- A datum put into the hole. -/
def Layer.fill (d : Datum) : Layer → Datum
  | present => .present d
  | wrapper name => .wrapper name d
  | wrapperVariant name variant => .wrapperVariant name variant d
  | sequence before after => .sequence (before ++ d :: after)
  | tuple before after => .tuple (before ++ d :: after)
  | namedTuple name before after => .namedTuple name (before ++ d :: after)
  | tupleVariant name variant before after => .tupleVariant name variant (before ++ d :: after)
  | record name before field after => .record name (before ++ (field, some d) :: after)
  | recordVariant name variant before field after =>
    .recordVariant name variant (before ++ (field, some d) :: after)
  | key before after => .map (before ++ .key d :: after)
  | value before after => .map (before ++ .value d :: after)
  | entryKey before v after => .map (before ++ .entry d v :: after)
  | entryValue before k after => .map (before ++ .entry k d :: after)

/-- A datum inside a nest of layers, the innermost first. -/
def fillAll (d : Datum) (layers : List Layer) : Datum := layers.foldl Layer.fill d

/-- One equation, used at one node of a tree. -/
def Restates (d e : Datum) : Prop :=
  ∃ a b layers, Equation a b ∧ d = fillAll a layers ∧ e = fillAll b layers

/-- Any number of equations, each used at any node and in either direction. -/
def Equivalent : Datum → Datum → Prop := Relation.EqvGen Restates

section
variable {d e : Datum}

theorem itemValues_congr (h : d.toValue = e.toValue) (before after : List Datum) :
    itemValues (before ++ d :: after) = itemValues (before ++ e :: after) := by
  induction before with
  | nil => simp only [List.nil_append, itemValues, h]
  | cons first before ih => simp only [List.cons_append, itemValues, ih]

theorem insertFields_congr (h : d.toValue = e.toValue) (m : OrderedMap Value)
    (before : List (String × Option Datum)) (field : String)
    (after : List (String × Option Datum)) :
    insertFields m (before ++ (field, some d) :: after) =
      insertFields m (before ++ (field, some e) :: after) := by
  induction before generalizing m with
  | nil => simp only [List.nil_append, insertFields, h]
  | cons first before ih =>
    obtain ⟨name, _ | first⟩ := first <;> simp only [List.cons_append, insertFields, ih]

theorem toValue_map_congr {c c' : MapCall Datum}
    (h : ∀ b rest, runCalls b (c :: rest) = runCalls b (c' :: rest))
    (before after : List (MapCall Datum)) :
    (Datum.map (before ++ c :: after)).toValue = (Datum.map (before ++ c' :: after)).toValue := by
  simp only [toValue, runCalls_append, h]

/-- **A datum may be exchanged for one of the same value or fault.**  Inside a key, too:
    the text of a key and the fault of one that has none depend on its value only. -/
theorem Layer.toValue_fill_congr (h : d.toValue = e.toValue) (layer : Layer) :
    (layer.fill d).toValue = (layer.fill e).toValue := by
  cases layer with
  | present | wrapper name | wrapperVariant name variant => simp only [fill, toValue, h]
  | sequence before after | tuple before after | namedTuple name before after
  | tupleVariant name variant before after =>
    simp only [fill, toValue, itemValues_congr h]
  | record name before field after | recordVariant name variant before field after =>
    simp only [fill, toValue, insertFields_congr h]
  | key before after | value before after | entryKey before v after
  | entryValue before k after =>
    exact toValue_map_congr (fun b rest => by simp only [runCalls, h]) before after

theorem toValue_fillAll_congr (h : d.toValue = e.toValue) (layers : List Layer) :
    (fillAll d layers).toValue = (fillAll e layers).toValue := by
  induction layers generalizing d e with
  | nil => exact h
  | cons layer layers ih => exact ih (layer.toValue_fill_congr h)

theorem Equation.equivalent (h : Equation d e) (layers : List Layer) :
    Equivalent (fillAll d layers) (fillAll e layers) :=
  .rel _ _ ⟨d, e, layers, h, rfl, rfl⟩

theorem Restates.toValue_eq (h : Restates d e) : d.toValue = e.toValue := by
  obtain ⟨a, b, layers, hequation, rfl, rfl⟩ := h
  exact toValue_fillAll_congr hequation.toValue_eq layers

end

/-- **Equivalent data have the same value or the same fault.**

    Any number of equations may be used, at any nodes and inside keys, in either
    direction.  The equation of single-precision numbers applies to all of them: each is
    the same number as one double. -/
theorem toValue_eq_of_equivalent :
    (∀ d e, Equivalent d e → d.toValue = e.toValue) ∧ ∀ s : Single, ∃! d, s.SameNumber d := by
  refine ⟨fun d e h => ?_, fun s => ⟨s.toDouble, s.sameNumber_toDouble, fun d hd => ?_⟩⟩
  · induction h with
    | rel d e h => exact h.toValue_eq
    | refl d => rfl
    | symm d e _ ih => exact ih.symm
    | trans d e f _ _ ih₁ ih₂ => exact ih₁.trans ih₂
  · exact hd.unique s.sameNumber_toDouble

/-- One half in single precision. -/
def singleHalf : Single := ⟨0x3F000000⟩

/-- One half in double precision. -/
def doubleHalf : Double := ⟨false, 0x3FE0000000000000, by decide⟩

/-- A payload that could be described in other ways. -/
def elaboratePayload : Datum := .tupleVariant "T" "V" [.single singleHalf]

/-- The same payload in plainer words. -/
def plainPayload : Datum := .wrapperVariant "T" "V" (.sequence [.double doubleHalf])

/-- A map whose last key is none, whatever it is called. -/
def elaborateMap : Datum :=
  .map [.entry (.present (.char 'k')) elaboratePayload, .key (.tuple [.absent])]

/-- The same map in plainer words. -/
def plainMap : Datum := .map [.entry (.text "k") plainPayload, .key (.sequence [.unit])]

theorem toValue_eq_of_equivalent_plainMap : Equivalent elaborateMap plainMap ∧
    elaborateMap.toValue = plainMap.toValue ∧ plainMap.toValue = .error (.unusableKey "list") ∧
      ∃! d, singleHalf.SameNumber d := by
  have hhalf : singleHalf.toDouble = doubleHalf := by decide +kernel
  have hsame : singleHalf.SameNumber doubleHalf := hhalf ▸ singleHalf.sameNumber_toDouble
  have hkey : Equivalent elaborateMap
      (.map [.entry (.text "k") elaboratePayload, .key (.tuple [.absent])]) :=
    .trans _ _ _
      ((Equation.present _).equivalent [.entryKey [] elaboratePayload [.key (.tuple [.absent])]])
      ((Equation.char 'k').equivalent [.entryKey [] elaboratePayload [.key (.tuple [.absent])]])
  have hpayload : Equivalent (.map [.entry (.text "k") elaboratePayload, .key (.tuple [.absent])])
      (.map [.entry (.text "k") plainPayload, .key (.tuple [.absent])]) :=
    .trans _ _ _
      ((Equation.tupleVariant "T" "V" _).equivalent
        [.entryValue [] (.text "k") [.key (.tuple [.absent])]])
      ((Equation.single hsame).equivalent [.sequence [] [], .wrapperVariant "T" "V",
        .entryValue [] (.text "k") [.key (.tuple [.absent])]])
  have hlast : Equivalent (.map [.entry (.text "k") plainPayload, .key (.tuple [.absent])])
      plainMap :=
    .trans _ _ _
      ((Equation.tuple _).equivalent [.key [.entry (.text "k") plainPayload] []])
      (Equation.absent.equivalent [.sequence [] [], .key [.entry (.text "k") plainPayload] []])
  have hequivalent : Equivalent elaborateMap plainMap :=
    .trans _ _ _ hkey (.trans _ _ _ hpayload hlast)
  exact ⟨hequivalent, toValue_eq_of_equivalent.1 _ _ hequivalent, rfl,
    toValue_eq_of_equivalent.2 singleHalf⟩

end Datum

end ScriptLiteral
