/-
  Script literals — every text of a document is read.

  The reader of nested values is a parameter, so what stands between two brackets
  is taken once for every depth (`readItems_listed`, `readMembers_listed`), and the
  induction is on the depth alone (`readValue_takes`).

  * `Reader.Takes` says that a reader takes every text of a language, with blanks
    in front and any text behind that does not continue a numeral;
  * `Document.json` is the tree of a document;
  * `readToken_texts` is one step into the brackets of a document;
  * `parse_texts`: every text of a document is read as its tree.
-/
import ScriptLiteral.Proofs.JsonTokens

namespace ScriptLiteral

namespace Json

/-! ## What stands between brackets -/

/-- A text that starts with a character that is neither a blank nor the bracket
    that closes an array. -/
def StartsValue (cs : List Char) : Prop :=
  ∃ c tail, cs = c :: tail ∧ isBlank c = false ∧ c ≠ ']'

theorem StartsValue.skipBlanks_eq {cs : List Char} (h : StartsValue cs) (rest : List Char) :
    skipBlanks (cs ++ rest) = cs ++ rest := by
  obtain ⟨c, tail, rfl, hblank, -⟩ := h
  exact skipBlanks_cons hblank _

/-- The reader takes each of these texts, and blanks in front, as `a`. -/
structure Reader.Takes {α : Type} (r : Reader α) (a : α) (texts : Language Char) : Prop where
  starts : ∀ cs ∈ texts, StartsValue cs
  run_eq : ∀ cs ∈ texts, ∀ ws ∈ blanks, ∀ rest, EndsNumber rest →
    r.run (ws ++ (cs ++ rest)) = .ok (a, rest)

theorem endsNumber_nil : EndsNumber [] := ⟨PlainNumber.ends_nil, nofun⟩

theorem endsNumber_cons {c : Char} (h : (c.isDigit = false ∧ c ≠ '.') ∧ c ≠ 'e' ∧ c ≠ 'E')
    (rest : List Char) : EndsNumber (c :: rest) := by
  refine ⟨PlainNumber.ends_cons h.1 rest, ?_⟩
  rintro _ ⟨⟩
  exact h.2

theorem endsNumber_blanks {ws rest : List Char} (hws : ws ∈ blanks) (hrest : EndsNumber rest) :
    EndsNumber (ws ++ rest) := by
  cases ws with
  | nil => exact hrest
  | cons w ws =>
    have hw : w ∈ [' ', '\t', '\n', '\r'] := hws w (List.mem_cons_self ..)
    simp only [List.mem_cons, List.not_mem_nil, or_false] at hw
    rcases hw with rfl | rfl | rfl | rfl <;> exact endsNumber_cons (by decide) _

theorem mem_listed_cons {text : Language Char} {texts : List (Language Char)} {cs : List Char} :
    cs ∈ listed (text :: texts) ↔
      ∃ ws ∈ blanks, ∃ item ∈ text, ∃ ws' ∈ blanks, ∃ more ∈ commaTexts texts,
        cs = ws ++ (item ++ (ws' ++ more)) := by
  constructor
  · intro h
    obtain ⟨front, hfront, more, hmore, rfl⟩ := Language.mem_mul.1 h
    obtain ⟨ws, hws, item, hitem, ws', hws', rfl⟩ := mem_padded.1 hfront
    exact ⟨ws, hws, item, hitem, ws', hws', more, hmore, by simp only [List.append_assoc]⟩
  · rintro ⟨ws, hws, item, hitem, ws', hws', more, hmore, rfl⟩
    have hfront : ws ++ (item ++ ws') ∈ padded text :=
      mem_padded.2 ⟨ws, hws, item, hitem, ws', hws', rfl⟩
    have h := Language.append_mem_mul hfront hmore
    rw [List.append_assoc, List.append_assoc] at h
    exact h

/-- Behind a comma stands what would stand behind the opening bracket. -/
theorem mem_commaTexts_cons {text : Language Char} {texts : List (Language Char)}
    {cs : List Char} :
    cs ∈ commaTexts (text :: texts) ↔ ∃ tail ∈ listed (text :: texts), cs = ',' :: tail := by
  have e : commaTexts (text :: texts) = {[',']} * listed (text :: texts) := by
    rw [commaTexts, List.map_cons, List.prod_cons, mul_assoc]
    rfl
  rw [e]
  constructor
  · intro h
    obtain ⟨_, rfl, tail, htail, rfl⟩ := Language.mem_mul.1 h
    exact ⟨tail, htail, rfl⟩
  · rintro ⟨tail, htail, rfl⟩
    exact Language.append_mem_mul (rfl : [','] ∈ _) htail

theorem endsNumber_commaTexts {texts : List (Language Char)} {cs rest : List Char}
    (hcs : cs ∈ commaTexts texts) (hrest : EndsNumber rest) : EndsNumber (cs ++ rest) := by
  cases texts with
  | nil =>
    obtain rfl : cs = [] := hcs
    exact hrest
  | cons text texts =>
    obtain ⟨tail, -, rfl⟩ := mem_commaTexts_cons.1 hcs
    exact endsNumber_cons (by decide) _

section
variable {α : Type} {item : Reader α}

/-! ### Items -/

/-- Behind blanks, something stands that does not close an array. -/
def StartsItem (text : List Char) : Prop :=
  skipBlanks text ≠ [] ∧ ∀ tail, skipBlanks text ≠ ']' :: tail

theorem startsItem_append {cs ws : List Char} (h : StartsValue cs) (hws : ws ∈ blanks)
    (rest : List Char) : StartsItem (ws ++ (cs ++ rest)) := by
  unfold StartsItem
  rw [skipBlanks_append hws, h.skipBlanks_eq]
  obtain ⟨c, tail, rfl, -, hc⟩ := h
  refine ⟨List.cons_ne_nil _ _, ?_⟩
  rintro _ ⟨⟩
  exact hc rfl

theorem readItems_of_startsItem {text : List Char} (h : StartsItem text) :
    readItems item text =
      match item.run text with
      | .error failure => .error failure
      | .ok (a, rest) => mapResult (a :: ·) (readMoreItems item rest) := by
  rw [readItems]
  split
  · next e => exact absurd e h.1
  · next e => exact absurd e (h.2 _)
  · cases item.run text with
    | error failure => rfl
    | ok r =>
      simp only
      cases readMoreItems item r.2 <;> rfl

theorem readMoreItems_close {text rest : List Char} (h : skipBlanks text = ']' :: rest) :
    readMoreItems item text = .ok ([], rest) := by
  rw [readMoreItems]
  split <;> simp_all

theorem readMoreItems_comma {text behind : List Char} (h : skipBlanks text = ',' :: behind)
    (hstart : StartsItem behind) : readMoreItems item text = readItems item behind := by
  rw [readMoreItems, readItems_of_startsItem hstart]
  split
  · simp_all
  · simp_all
  · next behind' e =>
    obtain rfl : behind = behind' := (List.cons.inj (h.symm.trans e)).2
    split
    · next e' => exact absurd e' (hstart.2 _)
    · split
      · next hrun => rw [hrun]
      · next a rest hrun =>
        simp only [hrun]
        cases readMoreItems item rest <;> rfl
  · simp_all

/-- **The items of an array are taken**, whatever their layout. -/
theorem readItems_listed {as : List α} {texts : List (Language Char)}
    (h : List.Forall₂ item.Takes as texts) {cs : List Char} (rest : List Char)
    (hcs : cs ∈ listed texts) : readItems item (cs ++ ']' :: rest) = .ok (as, rest) := by
  induction h generalizing cs with
  | nil =>
    rw [readItems, skipBlanks_append hcs]
    rfl
  | cons ha h ih =>
    obtain ⟨ws, hws, text, htext, ws', hws', more, hmore, rfl⟩ := mem_listed_cons.1 hcs
    have hends : EndsNumber (ws' ++ (more ++ ']' :: rest)) :=
      endsNumber_blanks hws' (endsNumber_commaTexts hmore (endsNumber_cons (by decide) _))
    simp only [List.append_assoc]
    rw [readItems_of_startsItem (startsItem_append (ha.starts text htext) hws _),
      ha.run_eq text htext ws hws _ hends]
    simp only
    cases h with
    | nil =>
      obtain rfl : more = [] := hmore
      rw [readMoreItems_close (skipBlanks_append hws' _)]
      rfl
    | cons hb _ =>
      obtain ⟨tail, htail, rfl⟩ := mem_commaTexts_cons.1 hmore
      have hstart : StartsItem (tail ++ ']' :: rest) := by
        obtain ⟨ws, hws, text, htext, ws', -, more, -, rfl⟩ := mem_listed_cons.1 htail
        rw [List.append_assoc, List.append_assoc]
        exact startsItem_append (hb.starts text htext) hws _
      rw [readMoreItems_comma (skipBlanks_append hws' _) hstart, ih htail]
      rfl

/-! ### Members -/

/-- The text of a member is taken as `m`, and starts with a quote. -/
def TakesMember (item : Reader α) (m : String × α) (texts : Language Char) : Prop :=
  ∀ cs ∈ texts, ∃ tail, cs = '"' :: tail ∧
    ∀ rest, EndsNumber rest → readMember item (tail ++ rest) = .ok (m, rest)

theorem takesMember {k : String} {a : α} {texts : Language Char} (ha : item.Takes a texts) :
    TakesMember item (k, a) (stringTexts k * padded {[':']} * texts) := by
  intro cs hcs
  obtain ⟨front, hfront, value, hvalue, rfl⟩ := Language.mem_mul.1 hcs
  obtain ⟨key, hkey, colon, hcolon, rfl⟩ := Language.mem_mul.1 hfront
  obtain ⟨chars, hchars, rfl⟩ := mem_enclosed.1 hkey
  obtain ⟨ws, hws, _, rfl, ws', hws', rfl⟩ := mem_padded.1 hcolon
  refine ⟨chars ++ '"' :: (ws ++ ':' :: (ws' ++ value)), by simp, fun rest hrest => ?_⟩
  simp only [List.append_assoc, List.cons_append]
  rw [readMember, readString_chars hchars]
  simp only [skipBlanks_append hws]
  rw [skipBlanks_cons rfl]
  simp only [ha.run_eq value hvalue ws' hws' rest hrest, String.ofList_toList]

theorem readMembers_of_quote {text tail : List Char} (h : skipBlanks text = '"' :: tail) :
    readMembers item text =
      match readMember item tail with
      | .error failure => .error failure
      | .ok (m, rest) => mapResult (m :: ·) (readMoreMembers item rest) := by
  simp only [readMembers, h]
  cases readMember item tail with
  | error failure => rfl
  | ok r =>
    simp only
    cases readMoreMembers item r.2 <;> rfl

theorem readMoreMembers_close {text rest : List Char} (h : skipBlanks text = '\x7d' :: rest) :
    readMoreMembers item text = .ok ([], rest) := by
  rw [readMoreMembers]
  split <;> simp_all

theorem readMoreMembers_comma {text behind tail : List Char}
    (h : skipBlanks text = ',' :: behind) (hquote : skipBlanks behind = '"' :: tail) :
    readMoreMembers item text = readMembers item behind := by
  rw [readMoreMembers, readMembers_of_quote hquote]
  split
  · simp_all
  · simp_all
  · next behind' e =>
    obtain rfl : behind = behind' := (List.cons.inj (h.symm.trans e)).2
    split
    · simp_all
    · next tail' e' =>
      obtain rfl : tail = tail' := (List.cons.inj (hquote.symm.trans e')).2
      split
      · next hm => rw [hm]
      · next m rest hm =>
        simp only [hm]
        cases readMoreMembers item rest <;> rfl
    · simp_all
    · simp_all
  · simp_all

/-- **The members of an object are taken**, whatever their layout. -/
theorem readMembers_listed {ms : List (String × α)} {texts : List (Language Char)}
    (h : List.Forall₂ (TakesMember item) ms texts) {cs : List Char} (rest : List Char)
    (hcs : cs ∈ listed texts) : readMembers item (cs ++ '\x7d' :: rest) = .ok (ms, rest) := by
  induction h generalizing cs with
  | nil =>
    rw [readMembers, skipBlanks_append hcs]
    rfl
  | cons hm h ih =>
    obtain ⟨ws, hws, text, htext, ws', hws', more, hmore, rfl⟩ := mem_listed_cons.1 hcs
    obtain ⟨tail, rfl, hread⟩ := hm text htext
    have hends : EndsNumber (ws' ++ (more ++ '\x7d' :: rest)) :=
      endsNumber_blanks hws' (endsNumber_commaTexts hmore (endsNumber_cons (by decide) _))
    simp only [List.append_assoc]
    have hquote : skipBlanks (ws ++ ('"' :: tail ++ (ws' ++ (more ++ '\x7d' :: rest)))) =
        '"' :: (tail ++ (ws' ++ (more ++ '\x7d' :: rest))) := skipBlanks_append hws _
    rw [readMembers_of_quote hquote, hread _ hends]
    simp only
    cases h with
    | nil =>
      obtain rfl : more = [] := hmore
      rw [readMoreMembers_close (skipBlanks_append hws' _)]
      rfl
    | cons hn _ =>
      obtain ⟨behind, hbehind, rfl⟩ := mem_commaTexts_cons.1 hmore
      obtain ⟨tail', hquote⟩ : ∃ tail', skipBlanks (behind ++ '\x7d' :: rest) = '"' :: tail' := by
        obtain ⟨ws, hws, text, htext, ws', -, more, -, rfl⟩ := mem_listed_cons.1 hbehind
        obtain ⟨tail, rfl, -⟩ := hn text htext
        exact ⟨_, by rw [List.append_assoc, List.append_assoc, skipBlanks_append hws]; rfl⟩
      rw [readMoreMembers_comma (skipBlanks_append hws' _) hquote, ih hbehind]
      rfl

end

/-! ## Documents -/

namespace Document

mutual

/-- The tree of a document. -/
def json : Document → Json
  | null => .null
  | bool b => .bool b
  | number t => .number t.number
  | string s => .string s
  | array items => .array (itemTrees items)
  | object members => .object (.ofList (memberTrees members))

/-- The trees of items. -/
def itemTrees : List Document → List Json
  | [] => []
  | d :: ds => json d :: itemTrees ds

/-- The trees of members, under their keys. -/
def memberTrees : List (String × Document) → List (String × Json)
  | [] => []
  | (k, d) :: rest => (k, json d) :: memberTrees rest

end

theorem depth_le_itemDepth {items : List Document} {d : Document} (h : d ∈ items) :
    d.depth ≤ itemDepth items := by
  induction items with
  | nil => nomatch h
  | cons e items ih =>
    rw [itemDepth]
    obtain rfl | h := List.mem_cons.1 h
    · exact le_max_left _ _
    · exact le_trans (ih h) (le_max_right _ _)

theorem depth_le_memberDepth {members : List (String × Document)} {m : String × Document}
    (h : m ∈ members) : m.2.depth ≤ memberDepth members := by
  induction members with
  | nil => nomatch h
  | cons e members ih =>
    rw [memberDepth]
    obtain rfl | h := List.mem_cons.1 h
    · exact le_max_left _ _
    · exact le_trans (ih h) (le_max_right _ _)

theorem forall₂_itemTrees {P : Json → Language Char → Prop} {items : List Document}
    (h : ∀ d ∈ items, P d.json d.texts) : List.Forall₂ P (itemTrees items) (itemTexts items) := by
  induction items with
  | nil => exact .nil
  | cons d items ih =>
    obtain ⟨hd, h⟩ := List.forall_mem_cons.1 h
    exact .cons hd (ih h)

theorem forall₂_memberTrees {P : String × Json → Language Char → Prop}
    {members : List (String × Document)}
    (h : ∀ m ∈ members, P (m.1, m.2.json) (stringTexts m.1 * padded {[':']} * m.2.texts)) :
    List.Forall₂ P (memberTrees members) (memberTexts members) := by
  induction members with
  | nil => exact .nil
  | cons m members ih =>
    obtain ⟨hm, h⟩ := List.forall_mem_cons.1 h
    exact .cons hm (ih h)

end Document

theorem readToken_of_isDigit (nested : Option (Reader Json)) {c : Char} (hc : c.isDigit = true)
    (rest : List Char) :
    readToken nested (c :: rest) = mapResult .number (readNumber false (c :: rest)) := by
  unfold readToken
  split <;> simp_all

theorem startsValue_of_isDigit {c : Char} (hc : c.isDigit = true) (tail : List Char) :
    StartsValue (c :: tail) := by
  have hblank : isBlank c = false := by
    refine Bool.eq_false_iff.2 fun h => ?_
    simp only [isBlank, Bool.or_eq_true, beq_iff_eq] at h
    rcases h with ((rfl | rfl) | rfl) | rfl <;> nomatch hc
  have hbracket : c ≠ ']' := by
    rintro rfl
    nomatch hc
  exact ⟨c, tail, rfl, hblank, hbracket⟩

theorem startsValue_texts {d : Document} {cs : List Char} (h : cs ∈ d.texts) : StartsValue cs := by
  cases d with
  | null =>
    obtain rfl : cs = ['n', 'u', 'l', 'l'] := h
    exact ⟨_, _, rfl, rfl, by decide⟩
  | bool b =>
    obtain rfl : cs = if b then ['t', 'r', 'u', 'e'] else ['f', 'a', 'l', 's', 'e'] := h
    cases b with
    | true => exact ⟨_, _, rfl, rfl, by decide⟩
    | false => exact ⟨_, _, rfl, rfl, by decide⟩
  | number t =>
    obtain ⟨c, tail, hc, rfl, -⟩ := read_numeralTexts t.grammatical h endsNumber_nil
    cases t.numeral.negative with
    | true => exact ⟨_, _, rfl, rfl, by decide⟩
    | false => exact startsValue_of_isDigit hc tail
  | string s =>
    obtain ⟨chars, -, rfl⟩ := mem_enclosed.1 h
    exact ⟨_, _, rfl, rfl, by decide⟩
  | array items =>
    obtain ⟨inside, -, rfl⟩ := mem_enclosed.1 h
    exact ⟨_, _, rfl, rfl, by decide⟩
  | object members =>
    obtain ⟨inside, -, rfl⟩ := mem_enclosed.1 h
    exact ⟨_, _, rfl, rfl, by decide⟩

/-- What stands right here is taken, if the reader of nested values takes the
    parts of a bracket. -/
theorem readToken_texts {nested : Option (Reader Json)} {d : Document}
    (hnested : 0 < d.depth → ∃ value, nested = some value ∧
      ∀ e : Document, e.depth < d.depth → value.Takes e.json e.texts)
    {cs rest : List Char} (hcs : cs ∈ d.texts) (hrest : EndsNumber rest) :
    readToken nested (cs ++ rest) = .ok (d.json, rest) := by
  cases d with
  | null =>
    obtain rfl : cs = ['n', 'u', 'l', 'l'] := hcs
    rfl
  | bool b =>
    cases b with
    | true =>
      obtain rfl : cs = ['t', 'r', 'u', 'e'] := hcs
      rfl
    | false =>
      obtain rfl : cs = ['f', 'a', 'l', 's', 'e'] := hcs
      rfl
  | number t =>
    obtain ⟨c, tail, hc, rfl, hread⟩ := readNumber_numeralTexts t hcs hrest
    cases hn : t.numeral.negative with
    | true =>
      rw [hn] at hread
      show mapResult Json.number (readNumber true (c :: tail ++ rest)) = _
      rw [hread]
      rfl
    | false =>
      rw [hn] at hread
      show readToken nested (c :: (tail ++ rest)) = _
      rw [readToken_of_isDigit nested hc, ← List.cons_append, hread]
      rfl
  | string s =>
    obtain ⟨chars, hchars, rfl⟩ := mem_enclosed.1 hcs
    simp only [List.append_assoc, List.cons_append, List.nil_append, readToken,
      readString_chars hchars]
    simp only [mapResult, Function.comp, String.ofList_toList, Document.json]
  | array items =>
    obtain ⟨value, rfl, hvalue⟩ := hnested (Nat.succ_pos _)
    obtain ⟨inside, hinside, rfl⟩ := mem_enclosed.1 hcs
    have hitems : List.Forall₂ value.Takes (Document.itemTrees items) (Document.itemTexts items) :=
      Document.forall₂_itemTrees fun d hd =>
        hvalue d (Nat.lt_succ_of_le (Document.depth_le_itemDepth hd))
    simp only [List.append_assoc, List.cons_append, List.nil_append, readToken,
      readItems_listed hitems rest hinside]
    rfl
  | object members =>
    obtain ⟨value, rfl, hvalue⟩ := hnested (Nat.succ_pos _)
    obtain ⟨inside, hinside, rfl⟩ := mem_enclosed.1 hcs
    have hmembers : List.Forall₂ (TakesMember value) (Document.memberTrees members)
        (Document.memberTexts members) :=
      Document.forall₂_memberTrees fun m hm =>
        takesMember (hvalue m.2 (Nat.lt_succ_of_le (Document.depth_le_memberDepth hm)))
    simp only [List.append_assoc, List.cons_append, List.nil_append, readToken,
      readMembers_listed hmembers rest hinside]
    rfl

theorem readNested_takes {nested : Option (Reader Json)} {d : Document}
    (hnested : 0 < d.depth → ∃ value, nested = some value ∧
      ∀ e : Document, e.depth < d.depth → value.Takes e.json e.texts) :
    (readNested nested).Takes d.json d.texts where
  starts _ hcs := startsValue_texts hcs
  run_eq cs hcs ws hws rest hrest := by
    show readToken nested (skipBlanks (ws ++ (cs ++ rest))) = _
    rw [skipBlanks_append hws, (startsValue_texts hcs).skipBlanks_eq]
    exact readToken_texts hnested hcs hrest

/-- **Every text of a document is taken as its tree**, at a depth that holds its
    brackets. -/
theorem readValue_takes {k : Nat} {d : Document} (h : d.depth ≤ k) :
    (readValue k).Takes d.json d.texts := by
  induction k generalizing d with
  | zero => exact readNested_takes fun hpos => absurd hpos (Nat.not_lt.2 h)
  | succ k ih =>
    refine readNested_takes fun _ => ⟨readValue k, rfl, fun e he => ih ?_⟩
    exact Nat.le_of_lt_succ (Nat.lt_of_lt_of_le he h)

/-- **Every text of a document is read as its tree**, if no more brackets are open
    at once than may be. -/
theorem parse_texts {d : Document} (h : d.depth ≤ greatestDepth) {text : String}
    (htext : text.toList ∈ padded d.texts) : parse text = .ok d.json := by
  obtain ⟨ws, hws, cs, hcs, ws', hws', e⟩ := mem_padded.1 htext
  have hends : EndsNumber ws' := by
    simpa only [List.append_nil] using endsNumber_blanks hws' endsNumber_nil
  have hblank : skipBlanks ws' = [] := by
    rw [← List.append_nil ws', skipBlanks_append hws']
    rfl
  have hread : readText text.toList = .ok d.json := by
    rw [e, readText, (readValue_takes h).run_eq cs hcs ws hws ws' hends]
    simp only [hblank]
  rw [parse, hread]

end Json

end ScriptLiteral
