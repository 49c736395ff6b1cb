/-
  Script literals — how far the readers of JSON look.

  Every run of them is settled by what it takes and the next byte.  What stands
  between brackets is read by the first character behind blanks, so each loop is tied
  to a step of that form (`readMoreItems_eq`, `readMoreMembers_eq`).

  * `Reader.Settles` says so of all runs of a reader of values;
  * `readItems_settled` and `readMembers_settled` rest on the reader of the values in
    a bracket;
  * `readToken_settled` is one step into a bracket, and `readValue_settles` the
    induction on the depth;
  * `takeText_settled`: a whole text.
-/
import ScriptLiteral.Proofs.TokenLookahead

namespace ScriptLiteral

namespace Json

/-! ## What stands between brackets -/

section
variable {α : Type} {item : Reader α}

/-- Every run of the reader is settled, and blanks in front make no difference. -/
structure Reader.Settles (r : Reader α) : Prop where
  settled : ∀ s, Settled r.run s
  run_skipBlanks : ∀ s, r.run (skipBlanks s) = r.run s

/-! ### Items -/

variable (item) in
/-- Take an item and those behind it. -/
def nextItem : List Char → Except Failure (List α × List Char) :=
  andThen item.run fun a rest => mapResult (a :: ·) (readMoreItems item rest)

variable (item) in
/-- Take what stands behind an item, with no blanks in front. -/
def behindItem : List Char → Except Failure (List α × List Char) :=
  closing ']' .endInArray (expecting ',' .endInArray .expectedArrayEnd fun rest =>
    refusing ']' .trailingComma (nextItem item) (skipBlanks rest))

theorem nextItem_skipBlanks (h : item.Settles) (text : List Char) :
    nextItem item (skipBlanks text) = nextItem item text := by
  rw [nextItem, andThen, andThen, h.run_skipBlanks]

theorem readMoreItems_eq (h : item.Settles) (text : List Char) :
    readMoreItems item text = behindItem item (skipBlanks text) := by
  rw [readMoreItems]
  split
  · next e => rw [e]; rfl
  · next e => rw [e]; rfl
  · next rest e =>
    rw [e]
    show _ = refusing ']' .trailingComma (nextItem item) (skipBlanks rest)
    split
    · next e' => rw [e']; rfl
    · next hbracket =>
      rw [refusing_of_ne hbracket, nextItem_skipBlanks h, nextItem, andThen]
      cases item.run rest with
      | error failure => rfl
      | ok r =>
        simp only
        cases readMoreItems item r.2 <;> rfl
  · next hbracket hcomma e =>
    rw [e, behindItem, closing, if_neg hbracket, expecting, if_neg hcomma]

theorem nextItem_settled (h : item.Settles) {s : List Char}
    (hmore : ∀ rest, rest.length < s.length → Settled (readMoreItems item) rest) :
    Settled (nextItem item) s :=
  (h.settled s).andThen _ fun a rest hrun => (hmore rest (item.shorter hrun)).map (a :: ·)

theorem readMoreItems_settled (h : item.Settles) (s : List Char) :
    Settled (readMoreItems item) s := by
  induction hn : s.length using Nat.strongRecOn generalizing s with
  | ind n ih =>
    have hskip := length_skipBlanks_le s
    refine Settled.of_eq (Settled.skip ?_) (readMoreItems_eq h)
    refine closing_settled (by decide) _ (expecting_settled (by decide) _ _ fun rest hrest => ?_)
    refine Settled.skip (refusing_settled (by decide) _ (nextItem_settled h fun more hmore => ?_))
    have hrest' := length_skipBlanks_le rest
    rw [hrest, List.length_cons] at hskip
    exact ih more.length (by omega) more rfl

theorem readItems_eq (h : item.Settles) (text : List Char) :
    readItems item text = closing ']' .endInArray (nextItem item) (skipBlanks text) := by
  rw [readItems]
  split
  · next e => rw [e]; rfl
  · next e => rw [e]; rfl
  · next hnil hbracket =>
    obtain ⟨c, rest, e⟩ := List.exists_cons_of_ne_nil hnil
    have hc : c ≠ ']' := fun hc => hbracket rest (hc ▸ e)
    rw [e, closing, if_neg hc, ← e, nextItem_skipBlanks h, nextItem, andThen]
    cases item.run text with
    | error failure => rfl
    | ok r =>
      simp only
      cases readMoreItems item r.2 <;> rfl

/-- **An array is settled by its items.** -/
theorem readItems_settled (h : item.Settles) (s : List Char) : Settled (readItems item) s :=
  .of_eq (.skip (closing_settled (by decide) _
    (nextItem_settled h fun rest _ => readMoreItems_settled h rest))) (readItems_eq h)

/-! ### Members -/

variable (item) in
/-- Take the value behind a key and a colon, with no blanks in front. -/
def behindKey (key : List Char) : List Char → Except Failure ((String × α) × List Char) :=
  expecting ':' .endInObject .expectedColon fun rest =>
    mapResult (String.ofList key, ·) (item.run rest)

theorem readMember_eq (text : List Char) :
    readMember item text =
      andThen readString (fun key rest => behindKey item key (skipBlanks rest)) text := by
  rw [readMember, andThen]
  cases readString text with
  | error failure => rfl
  | ok r =>
    simp only
    split
    · next e => rw [e]; rfl
    · next rest e =>
      rw [e]
      show _ = mapResult (String.ofList r.1, ·) (item.run rest)
      cases item.run rest <;> rfl
    · next hcolon e => rw [e, behindKey, expecting, if_neg hcolon]

theorem readMember_settled (h : item.Settles) (s : List Char) : Settled (readMember item) s := by
  refine ((readString_settled s).andThen _ fun key rest _ => ?_).of_eq readMember_eq
  exact .skip (expecting_settled (by decide) _ _ fun rest' _ => (h.settled rest').map _)

variable (item) in
/-- Take a member whose opening quote has been taken, and those behind it. -/
def nextMember : List Char → Except Failure (List (String × α) × List Char) :=
  andThen (readMember item) fun m rest => mapResult (m :: ·) (readMoreMembers item rest)

variable (item) in
/-- Take what stands behind a member, with no blanks in front. -/
def behindMember : List Char → Except Failure (List (String × α) × List Char) :=
  closing '\x7d' .endInObject (expecting ',' .endInObject .expectedObjectEnd fun rest =>
    refusing '\x7d' .trailingComma
      (expecting '"' .endInValue .keyNotString (nextMember item)) (skipBlanks rest))

variable (item) in
/-- Take what stands behind an opening brace, with no blanks in front. -/
def firstMember : List Char → Except Failure (List (String × α) × List Char) :=
  closing '\x7d' .endInObject (expecting '"' .endInObject .keyNotString (nextMember item))

theorem readMoreMembers_eq (text : List Char) :
    readMoreMembers item text = behindMember item (skipBlanks text) := by
  rw [readMoreMembers]
  split
  · next e => rw [e]; rfl
  · next e => rw [e]; rfl
  · next rest e =>
    rw [e]
    show _ = refusing '\x7d' .trailingComma
      (expecting '"' .endInValue .keyNotString (nextMember item)) (skipBlanks rest)
    split
    · next e' => rw [e']; rfl
    · next rest' e' =>
      rw [e']
      show _ = nextMember item rest'
      rw [nextMember, andThen]
      cases readMember item rest' with
      | error failure => rfl
      | ok r =>
        simp only
        cases readMoreMembers item r.2 <;> rfl
    · next e' => rw [e']; rfl
    · next hquote hbrace e' => rw [e', refusing, if_neg hbrace, expecting, if_neg hquote]
  · next hbrace hcomma e =>
    rw [e, behindMember, closing, if_neg hbrace, expecting, if_neg hcomma]

theorem readMembers_eq (text : List Char) :
    readMembers item text = firstMember item (skipBlanks text) := by
  rw [readMembers]
  split
  · next e => rw [e]; rfl
  · next e => rw [e]; rfl
  · next rest e =>
    rw [e]
    show _ = nextMember item rest
    rw [nextMember, andThen]
    cases readMember item rest with
    | error failure => rfl
    | ok r =>
      simp only
      cases readMoreMembers item r.2 <;> rfl
  · next hbrace hquote e => rw [e, firstMember, closing, if_neg hbrace, expecting, if_neg hquote]

theorem nextMember_settled (h : item.Settles) {s : List Char}
    (hmore : ∀ rest, rest.length < s.length → Settled (readMoreMembers item) rest) :
    Settled (nextMember item) s :=
  (readMember_settled h s).andThen _ fun m rest hread =>
    (hmore rest (readMember_shorter item hread)).map (m :: ·)

theorem readMoreMembers_settled (h : item.Settles) (s : List Char) :
    Settled (readMoreMembers item) s := by
  induction hn : s.length using Nat.strongRecOn generalizing s with
  | ind n ih =>
    have hskip := length_skipBlanks_le s
    refine Settled.of_eq (Settled.skip ?_) readMoreMembers_eq
    refine closing_settled (by decide) _ (expecting_settled (by decide) _ _ fun rest hrest => ?_)
    refine Settled.skip (refusing_settled (by decide) _
      (expecting_settled (by decide) _ _ fun rest' hrest' =>
        nextMember_settled h fun more hmore => ?_))
    have hskip' := length_skipBlanks_le rest
    rw [hrest, List.length_cons] at hskip
    rw [hrest', List.length_cons] at hskip'
    exact ih more.length (by omega) more rfl

/-- **An object is settled by its members.** -/
theorem readMembers_settled (h : item.Settles) (s : List Char) : Settled (readMembers item) s := by
  refine Settled.of_eq (Settled.skip (closing_settled (by decide) _ ?_)) readMembers_eq
  exact expecting_settled (by decide) _ _ fun rest _ =>
    nextMember_settled h fun more _ => readMoreMembers_settled h more

end

/-! ## Values -/

theorem readWord_settled {α : Type} (a : α) (word : List Char) (h : ∀ w ∈ word, w.toNat < 0x80)
    (s : List Char) : Settled (fun t => (readWord word t).map (a, ·)) s := by
  induction word generalizing s with
  | nil => exact .taken [] fun t => rfl
  | cons w word ih =>
    obtain ⟨hw, hword⟩ := List.forall_mem_cons.1 h
    cases s with
    | nil => exact .atEnd rfl
    | cons c s =>
      by_cases hc : c = w
      · refine .tail ((ih hword s).of_eq fun t => ?_)
        rw [readWord, if_pos hc]
      · refine .atByte .expectedWord fun d t hd => ?_
        rw [readWord, if_neg (hd.ne hc hw)]
        rfl

/-- The characters that a value may start with, digits apart. -/
def valueMarks : List Char := ['n', 't', 'f', '"', '-', '[', '\x7b']

theorem readToken_cons (nested : Option (Reader Json)) {c : Char} (h : c ∉ valueMarks)
    (text : List Char) :
    readToken nested (c :: text) =
      if c.isDigit then mapResult .number (readNumber false (c :: text))
      else .error (.atByte .expectedValue (c :: text)) := by
  simp only [valueMarks, List.mem_cons, List.not_mem_nil, or_false, not_or] at h
  unfold readToken
  split <;> simp_all

/-- **One step into a bracket**: a value is settled if the values in it are. -/
theorem readToken_settled {nested : Option (Reader Json)}
    (h : ∀ value, nested = some value → value.Settles) (s : List Char) :
    Settled (readToken nested) s := by
  cases s with
  | nil => exact .atEnd rfl
  | cons c s =>
    by_cases hmark : c ∈ valueMarks
    · simp only [valueMarks, List.mem_cons, List.not_mem_nil, or_false] at hmark
      rcases hmark with rfl | rfl | rfl | rfl | rfl | rfl | rfl
      · exact .tail (readWord_settled Json.null ['u', 'l', 'l'] (by simp) s)
      · exact .tail (readWord_settled (Json.bool true) ['r', 'u', 'e'] (by simp) s)
      · exact .tail (readWord_settled (Json.bool false) ['a', 'l', 's', 'e'] (by simp) s)
      · exact .tail ((readString_settled s).map _)
      · exact .tail ((readNumber_settled true s).map _)
      · cases nested with
        | none => exact .atByte .tooDeep fun d t hd => by rw [hd.eq (by decide)]; rfl
        | some value => exact .tail ((readItems_settled (h value rfl) s).map _)
      · cases nested with
        | none => exact .atByte .tooDeep fun d t hd => by rw [hd.eq (by decide)]; rfl
        | some value => exact .tail ((readMembers_settled (h value rfl) s).map _)
    · have hmark' : ∀ d, Alike c d → d ∉ valueMarks := by
        intro d hd hmem
        have hascii : ∀ m ∈ valueMarks, m.toNat < 0x80 := by simp [valueMarks]
        exact hmark ((hd.eq_iff (hascii d hmem)).1 rfl ▸ hmem)
      by_cases hc : c.isDigit
      · refine ((readNumber_settled false (c :: s)).map .number).congr_cons fun d t hd => ?_
        rw [readToken_cons nested (hmark' d hd), if_pos (hd.isDigit_eq.trans hc)]
      · refine .atByte .expectedValue fun d t hd => ?_
        rw [readToken_cons nested (hmark' d hd), if_neg (hd.isDigit_eq.symm ▸ hc)]

theorem readNested_settles {nested : Option (Reader Json)}
    (h : ∀ value, nested = some value → value.Settles) : (readNested nested).Settles where
  settled s := (readToken_settled h (skipBlanks s)).skip
  run_skipBlanks s := by
    show readToken nested (skipBlanks (skipBlanks s)) = readToken nested (skipBlanks s)
    rw [skipBlanks_skipBlanks]

/-- **Every value is settled**, however deep its brackets nest. -/
theorem readValue_settles (depth : Nat) : (readValue depth).Settles := by
  induction depth with
  | zero => exact readNested_settles nofun
  | succ depth ih =>
    refine readNested_settles fun value hvalue => ?_
    cases hvalue
    exact ih

/-! ## Texts -/

/-- Take the blanks up to the end of the text. -/
def endText : List Char → Except Failure (Unit × List Char)
  | [] => .ok ((), [])
  | c :: rest => .error (.atByte .trailingCharacters (c :: rest))

/-- Take a value and the blanks around it, up to the end of the text. -/
def takeText : List Char → Except Failure (Json × List Char) :=
  andThen (readValue greatestDepth).run fun value rest =>
    mapResult (fun _ => value) (endText (skipBlanks rest))

theorem readText_eq (text : List Char) : readText text = (takeText text).map Prod.fst := by
  rw [readText, takeText, andThen]
  cases (readValue greatestDepth).run text with
  | error failure => rfl
  | ok r =>
    simp only
    cases skipBlanks r.2 <;> rfl

theorem endText_settled (s : List Char) : Settled endText s := by
  cases s with
  | nil => exact .found_end rfl
  | cons c s => exact .atByte .trailingCharacters fun d t _ => rfl

/-- **A text is settled.** -/
theorem takeText_settled (s : List Char) : Settled takeText s :=
  ((readValue_settles greatestDepth).settled s).andThen _ fun value rest _ =>
    (endText_settled (skipBlanks rest)).skip.map fun _ => value

end Json

end ScriptLiteral
