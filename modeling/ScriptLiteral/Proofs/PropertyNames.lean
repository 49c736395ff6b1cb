/-
  Script literals — the property names of an object literal.

  A key token of an object literal denotes a property name: a bare word denotes
  itself, and a string literal its unescaped text.  The name is the key of the map
  but for its line breaks, since a string literal writes `CR LF` and `LF` alike.

  * `propertyName?` is what a token denotes, and `propertyName?_key` what the token
    of a key denotes;
  * `literal_of_run_emit`: wherever a value is written, what is written is its
    literal;
  * `shadowed_lineBreaks`: two keys of one map can denote the same name;
  * `propertyNames_distinct_iff`: they do iff they differ in their line breaks only.
-/
import ScriptLiteral.Proofs.Reader
import ScriptLiteral.Proofs.Shape

namespace ScriptLiteral

/-! ## Line breaks -/

theorem foldText_eq_self {s : String} (h : ¬ ['\r', '\n'] <:+: s.toList) : foldText s = s := by
  have hfold : ∀ cs : List Char, ¬ ['\r', '\n'] <:+: cs → foldBreaks cs = cs := by
    intro cs hcs
    fun_induction foldBreaks cs with
    | case1 => rfl
    | case2 cs => exact absurd (List.prefix_append ['\r', '\n'] cs).isInfix hcs
    | case3 c cs _ ih => rw [ih fun hinfix => hcs (List.infix_cons hinfix)]
  rw [foldText, hfold _ h, String.ofList_toList]

/-! ## Names -/

/-- The property name that a key token denotes. -/
def propertyName? (token : String) : Option String :=
  match Term.readKey token.toList with
  | some (name, []) => some name
  | _ => none

/-- The token of a key denotes the key with each `CR LF` as `LF`. -/
theorem propertyName?_key (k : String) : propertyName? (Literal.key k) = some (foldText k) := by
  have hread : Term.readKey (Term.keyChars (foldText k) ++ []) = some (foldText k, []) :=
    Term.readKey_keyChars (foldText k) nofun
  rw [List.append_nil] at hread
  rw [propertyName?, Term.toList_key_eq, hread]

namespace OrderedMap

variable {α : Type} (m : OrderedMap α)

/-- The key tokens of the object literal of a map, in order. -/
def keyTokens : List String := m.keys.map Literal.key

theorem map_propertyName?_keyTokens :
    m.keyTokens.map propertyName? = m.keys.map fun k => some (foldText k) := by
  simp [keyTokens, propertyName?_key]

end OrderedMap

/-! ## Object literals wherever they are written -/

namespace Value

open Literal

theorem literal_of_run_emit {v : Value} {d d' : Draft} (h : (emit v).run d = .ok () d') :
    ∃ t, v.literal = .ok t ∧ d'.text = d.text ++ t := by
  obtain ⟨t, ht, rfl⟩ := run_emit_eq_ok_iff.1 h
  exact ⟨t, ht, rfl⟩

/-- A map with unique keys, of which two differ in their line breaks. -/
def lineBreaks : OrderedMap Value := ⟨[("a\r\n", .integer 1), ("a\n", .integer 2)]⟩

/-- **Two keys of a map can denote one property name.**  Of the entries of this
    object literal, only the last remains when it is evaluated. -/
theorem shadowed_lineBreaks : lineBreaks.DistinctKeys ∧ lineBreaks.isIndexed = false ∧
    (Value.map lineBreaks).literal = .ok "\x7b'a\\n': 1, 'a\\n': 2\x7d" ∧
      lineBreaks.keyTokens = ["'a\\n'", "'a\\n'"] ∧
        lineBreaks.keyTokens.map propertyName? = [some "a\n", some "a\n"] ∧
          ¬ (lineBreaks.keyTokens.map propertyName?).Nodup := by
  have hdistinct : lineBreaks.keys.Nodup := by decide
  have hnames : lineBreaks.keyTokens.map propertyName? = [some "a\n", some "a\n"] := by decide
  refine ⟨hdistinct, by decide, by rfl, by decide, hnames, ?_⟩
  rw [hnames]
  decide

/-- **The property names of an object literal are the keys of its map but for their
    line breaks**, wherever the literal is written.

    It lists a key token and the literal of its value for each entry of the map, and
    each token denotes its key with every `CR LF` as `LF`.  So the names are distinct
    iff no two keys are the same then; and they are distinct if the keys are and none
    of them contains `CR LF`. -/
theorem propertyNames_distinct_iff {m : OrderedMap Value} (hm : m.isIndexed = false)
    {d d' : Draft} (h : (emit (.map m)).run d = .ok () d') :
    (∃ ts : List String, List.Forall₂ (fun v t => v.literal = .ok t) m.values ts ∧
      d'.text = d.text ++ ("\x7b" ++
        ", ".intercalate (List.zipWith (fun k t => k ++ ": " ++ t) m.keyTokens ts) ++ "\x7d")) ∧
      m.keyTokens.map propertyName? = m.keys.map (fun k => some (foldText k)) ∧
      ((m.keyTokens.map propertyName?).Nodup ↔
        m.keys.Pairwise fun k l => foldText k ≠ foldText l) ∧
      (m.DistinctKeys → (∀ k ∈ m.keys, ¬ ['\r', '\n'] <:+: k.toList) →
        (m.keyTokens.map propertyName?).Nodup) := by
  have hnames := m.map_propertyName?_keyTokens
  have hiff : (m.keyTokens.map propertyName?).Nodup ↔
      m.keys.Pairwise fun k l => foldText k ≠ foldText l := by
    rw [hnames, List.Nodup, List.pairwise_map]
    simp only [ne_eq, Option.some_inj]
  refine ⟨?_, hnames, hiff, fun hdistinct hfree => hiff.2 ?_⟩
  · obtain ⟨t, ht, htext⟩ := literal_of_run_emit h
    obtain ⟨ts, hts, rfl⟩ := literal_map_eq hm ht
    refine ⟨ts, hts, ?_⟩
    rw [htext, OrderedMap.keyTokens, List.zipWith_map_left]
  · refine List.Pairwise.imp_of_mem (fun hk hl hne => ?_) hdistinct
    rwa [foldText_eq_self (hfree _ hk), foldText_eq_self (hfree _ hl)]

/-- A map whose keys hold quotes, backslashes and single halves of a line break. -/
def awkwardKeys : OrderedMap Value :=
  ⟨[("it's", .null), ("it\\'s", .list []), ("a\r", .bool true), ("a\n", .integer 7), ("new", .null)]⟩

/-- The draft of a declaration with the object literal of `awkwardKeys`. -/
def awkwardDraft : Draft :=
  ⟨"x = \x7b'it\\'s': null, 'it\\\\\\'s': [], 'a\r': true, 'a\\n': 7, new: null\x7d", #[]⟩

theorem propertyNames_distinct_awkwardKeys : awkwardKeys.isIndexed = false ∧
    (emit (.map awkwardKeys)).run ⟨"x = ", #[]⟩ = .ok () awkwardDraft ∧
      (awkwardKeys.keyTokens.map propertyName?).Nodup := by
  have hindexed : awkwardKeys.isIndexed = false := by decide
  have hrun : (emit (.map awkwardKeys)).run ⟨"x = ", #[]⟩ = .ok () awkwardDraft := by rfl
  have hdistinct : awkwardKeys.keys.Nodup := by decide
  have hfree : ∀ k ∈ awkwardKeys.keys, ¬ ['\r', '\n'] <:+: k.toList := by decide
  obtain ⟨-, -, -, hnodup⟩ := propertyNames_distinct_iff hindexed hrun
  exact ⟨hindexed, hrun, hnodup hdistinct hfree⟩

end Value

end ScriptLiteral
