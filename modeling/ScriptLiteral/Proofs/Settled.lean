/-
  Script literals — runs that are settled by what they take.

  A run of a reader is settled if it depends on nothing behind the first byte of what
  it leaves, or behind the first byte that does not count as consumed where it fails.

  * `Settled` says so of one run;
  * its rules follow the ways in which readers are put together: one after the other
    (`Settled.andThen`), behind a character that has been seen (`Settled.tail`),
    characters of one kind (`Settled.takeWhile`), behind blanks (`Settled.skip`), by
    the first character (`expecting_settled`, `refusing_settled`, `closing_settled`).
-/
import ScriptLiteral.Proofs.TextBytes

namespace ScriptLiteral

namespace Json

section
variable {α β : Type} {run run' : List Char → Except Failure (α × List Char)} {s : List Char}

/-- A run that another text gives too, if what it leaves starts with the same byte,
    or with the same bytes up to the first that does not count as consumed. -/
inductive Settled (run : List Char → Except Failure (α × List Char)) (s : List Char) : Prop
  | ok {a : α} {cs rest : List Char} (text : s = cs ++ rest) (found : run s = .ok (a, rest))
      (same : ∀ t, Agree 1 rest t → run (cs ++ t) = .ok (a, t)) : Settled run s
  | error {cause : Cause} {past : Nat} {cs rest : List Char} (text : s = cs ++ rest)
      (failed : run s = .error ⟨cause, rest, past⟩) (le : past ≤ byteCount rest)
      (same : ∀ t, Agree (past + 1) rest t → run (cs ++ t) = .error ⟨cause, t, past⟩) :
      Settled run s

theorem not_agree_nil {n : Nat} {t : List Char} : ¬ Agree (n + 1) [] t :=
  fun h => absurd h.1 (Nat.not_succ_le_zero n)

theorem Settled.found_end {a : α} (h : run s = .ok (a, [])) : Settled run s :=
  .ok (List.append_nil s).symm h fun _ ht => absurd ht not_agree_nil

theorem Settled.atEnd {cause : Cause} (h : run s = .error (.atEnd cause)) : Settled run s :=
  .error (List.append_nil s).symm h (Nat.zero_le _) fun _ ht => absurd ht not_agree_nil

theorem Settled.taken {a : α} (cs : List Char) {rest : List Char}
    (h : ∀ t, run (cs ++ t) = .ok (a, t)) : Settled run (cs ++ rest) :=
  .ok rfl (h rest) fun t _ => h t

theorem Settled.untaken {a : α} {c : Char}
    (h : ∀ d t, Alike c d → run (d :: t) = .ok (a, d :: t)) : Settled run (c :: s) := by
  refine .ok (List.nil_append _).symm (h c s (.inl rfl)) fun t ht => ?_
  obtain ⟨d, t, rfl, hd⟩ := exists_alike ht
  exact h d t hd

theorem Settled.before {cause : Cause} (h : ∀ t, run t = .error (.before cause t)) :
    Settled run s :=
  .error (List.nil_append s).symm (h s) (Nat.zero_le _) fun t _ => h t

theorem Settled.atByte (cause : Cause) {c : Char}
    (h : ∀ d t, Alike c d → run (d :: t) = .error (.atByte cause (d :: t))) :
    Settled run (c :: s) := by
  refine .error (List.nil_append _).symm (h c s (.inl rfl)) (byteCount_cons_pos c s) fun t ht => ?_
  obtain ⟨d, t, rfl, hd⟩ := exists_alike (ht.mono (Nat.le_add_left 1 1))
  exact h d t hd

theorem Settled.tail {c : Char} (h : Settled (fun t => run (c :: t)) s) : Settled run (c :: s) := by
  cases h with
  | @ok a cs rest text found same =>
    have htext : c :: s = (c :: cs) ++ rest := congrArg (c :: ·) text
    exact .ok htext found same
  | @error cause past cs rest text failed le same =>
    have htext : c :: s = (c :: cs) ++ rest := congrArg (c :: ·) text
    exact .error htext failed le same

/-- Another reader that does the same, here and where the first byte is the same. -/
theorem Settled.congr (h : Settled run s) (here : run' s = run s)
    (same : ∀ t, Agree 1 s t → run' t = run t) : Settled run' s := by
  cases h with
  | ok text found h =>
    refine .ok text (here.trans found) fun t ht => ?_
    rw [same _ (text ▸ ht.behind _), h t ht]
  | error text failed le h =>
    refine .error text (here.trans failed) le fun t ht => ?_
    rw [same _ (text ▸ (ht.mono (Nat.le_add_left ..)).behind _), h t ht]

theorem Settled.congr_cons {c : Char} (h : Settled run (c :: s))
    (same : ∀ d t, Alike c d → run' (d :: t) = run (d :: t)) : Settled run' (c :: s) := by
  refine h.congr (same c s (.inl rfl)) fun t ht => ?_
  obtain ⟨d, t, rfl, hd⟩ := exists_alike ht
  exact same d t hd

theorem Settled.of_eq (h : Settled run s) (same : ∀ t, run' t = run t) : Settled run' s :=
  h.congr (same s) fun t _ => same t

/-- One reader after another. -/
def andThen (first : List Char → Except Failure (α × List Char))
    (second : α → List Char → Except Failure (β × List Char)) (text : List Char) :
    Except Failure (β × List Char) :=
  match first text with
  | .error failure => .error failure
  | .ok (a, rest) => second a rest

theorem Settled.andThen (h : Settled run s)
    (second : α → List Char → Except Failure (β × List Char))
    (hsecond : ∀ a rest, run s = .ok (a, rest) → Settled (second a) rest) :
    Settled (andThen run second) s := by
  cases h with
  | error text failed le same =>
    refine .error text (by rw [Json.andThen, failed]) le fun t ht => ?_
    rw [Json.andThen, same t ht]
  | @ok a cs rest text found same =>
    -- what the second leaves is left by both, and the first has not looked any further
    have hrun : ∀ t, Agree 1 rest t → Json.andThen run second (cs ++ t) = second a t := by
      intro t ht
      rw [Json.andThen, same t ht]
    have hhere : Json.andThen run second s = second a rest := by
      rw [Json.andThen, found]
    cases hsecond a rest found with
    | @ok b cs' rest' text' found' same' =>
      refine .ok (by rw [text, text', List.append_assoc]) (hhere.trans found') fun t ht => ?_
      rw [List.append_assoc, hrun _ (text' ▸ ht.behind cs'), same' t ht]
    | @error cause past cs' rest' text' failed' le' same' =>
      refine .error (by rw [text, text', List.append_assoc]) (hhere.trans failed') le' fun t ht => ?_
      rw [List.append_assoc, hrun _ (text' ▸ (ht.mono (Nat.le_add_left ..)).behind cs'), same' t ht]

theorem Settled.map (h : Settled run s) (f : α → β) :
    Settled (fun t => mapResult f (run t)) s := by
  cases h with
  | ok text found same =>
    exact .ok text (by rw [found]; rfl) fun t ht => by rw [same t ht]; rfl
  | error text failed le same =>
    exact .error text (by rw [failed]; rfl) le fun t ht => by rw [same t ht]; rfl

/-! ### Characters of one kind -/

section
variable {p : Char → Bool} (hp : ∀ c d, Alike c d → p d = p c)
include hp

/-- Where the characters of a kind end, they end in every text with the same byte
    there, if the kind does not tell characters apart that are alike. -/
theorem dropWhile_append_of_agree {t : List Char} (h : Agree 1 (s.dropWhile p) t) :
    (s.takeWhile p ++ t).takeWhile p = s.takeWhile p ∧
      (s.takeWhile p ++ t).dropWhile p = t := by
  have hend := List.head?_dropWhile_not p s
  cases hs : s.dropWhile p with
  | nil => exact absurd (hs ▸ h) not_agree_nil
  | cons c rest =>
    rw [hs] at h hend
    obtain ⟨d, t, rfl, hd⟩ := exists_alike h
    have hd' : p d = false := (hp c d hd).trans hend
    have hall : ∀ a ∈ s.takeWhile p, p a = true := fun a ha => List.mem_takeWhile_imp ha
    rw [List.takeWhile_append_of_pos hall, List.dropWhile_append_of_pos hall,
      List.takeWhile_cons, List.dropWhile_cons, hd']
    exact ⟨List.append_nil _, rfl⟩

theorem Settled.takeWhile {f : List Char → α}
    (h : ∀ t, run t = .ok (f (t.takeWhile p), t.dropWhile p)) : Settled run s := by
  refine .ok List.takeWhile_append_dropWhile.symm (h s) fun t ht => ?_
  obtain ⟨htake, hdrop⟩ := dropWhile_append_of_agree hp ht
  rw [h, htake, hdrop]

end

theorem Settled.digits {f : List Char → α}
    (h : ∀ t, run t = .ok (f (t.takeWhile Char.isDigit), t.dropWhile Char.isDigit)) :
    Settled run s :=
  .takeWhile (fun _ _ hd => hd.isDigit_eq) h

theorem skipBlanks_skipBlanks (s : List Char) : skipBlanks (skipBlanks s) = skipBlanks s :=
  List.dropWhile_idempotent _ s

theorem Settled.skip (h : Settled run (skipBlanks s)) :
    Settled (fun t => run (skipBlanks t)) s := by
  have hs : s = s.takeWhile isBlank ++ skipBlanks s := List.takeWhile_append_dropWhile.symm
  have hskip : ∀ t, Agree 1 (skipBlanks s) t → skipBlanks (s.takeWhile isBlank ++ t) = t :=
    fun t ht => (dropWhile_append_of_agree (fun _ _ hd => hd.isBlank_eq) ht).2
  cases h with
  | ok text found same =>
    refine .ok (by rw [List.append_assoc, ← text]; exact hs) found fun t ht => ?_
    rw [List.append_assoc, hskip _ (text ▸ ht.behind _), same t ht]
  | error text failed le same =>
    refine .error (by rw [List.append_assoc, ← text]; exact hs) failed le fun t ht => ?_
    rw [List.append_assoc, hskip _ (text ▸ (ht.mono (Nat.le_add_left ..)).behind _), same t ht]

/-! ### Signs -/

/-- A sign is taken and another reader goes on; anything else is refused. -/
def expecting (sign : Char) (ended refused : Cause)
    (next : List Char → Except Failure (α × List Char)) :
    List Char → Except Failure (α × List Char)
  | [] => .error (.atEnd ended)
  | c :: rest => if c = sign then next rest else .error (.atByte refused (c :: rest))

/-- A sign is refused; anything else is left to another reader. -/
def refusing (sign : Char) (refused : Cause)
    (other : List Char → Except Failure (α × List Char)) :
    List Char → Except Failure (α × List Char)
  | [] => other []
  | c :: rest => if c = sign then .error (.atByte refused (c :: rest)) else other (c :: rest)

theorem refusing_of_ne {sign : Char} {text : List Char} (h : ∀ rest, text ≠ sign :: rest)
    (refused : Cause) (other : List Char → Except Failure (α × List Char)) :
    refusing sign refused other text = other text := by
  cases text with
  | nil => rfl
  | cons c rest => exact if_neg fun hc => h rest (congrArg (· :: rest) hc)

/-- A sign ends a list; anything else is left to another reader. -/
def closing (sign : Char) (ended : Cause)
    (other : List Char → Except Failure (List α × List Char)) :
    List Char → Except Failure (List α × List Char)
  | [] => .error (.atEnd ended)
  | c :: rest => if c = sign then .ok ([], rest) else other (c :: rest)

variable {sign : Char} (hsign : sign.toNat < 0x80)
include hsign

theorem expecting_settled (ended refused : Cause)
    (h : ∀ rest, s = sign :: rest → Settled run rest) :
    Settled (expecting sign ended refused run) s := by
  cases s with
  | nil => exact .atEnd rfl
  | cons c s =>
    by_cases hc : c = sign
    · subst hc
      exact .tail ((h s rfl).of_eq fun t => if_pos rfl)
    · exact .atByte refused fun d t hd => if_neg (hd.ne hc hsign)

theorem refusing_settled (refused : Cause) (h : Settled run s) :
    Settled (refusing sign refused run) s := by
  cases s with
  | nil => exact h.congr rfl fun t ht => absurd ht not_agree_nil
  | cons c s =>
    by_cases hc : c = sign
    · exact .atByte refused fun d t hd => if_pos ((hd.eq_iff hsign).2 hc)
    · exact h.congr_cons fun d t hd => if_neg (hd.ne hc hsign)

theorem closing_settled (ended : Cause) {other : List Char → Except Failure (List α × List Char)}
    (h : Settled other s) : Settled (closing sign ended other) s := by
  cases s with
  | nil => exact .atEnd rfl
  | cons c s =>
    by_cases hc : c = sign
    · subst hc
      exact .taken [c] fun t => if_pos rfl
    · exact h.congr_cons fun d t hd => if_neg (hd.ne hc hsign)

end

end Json

end ScriptLiteral
