/-
  Script literals — a datum as a sequence of calls.

  A datum describes itself by calls, one after the other, and whoever converts it
  cannot look ahead.  The calls can be walked without building anything: of what has
  been described, all that a fault depends on is whether the datum before would do
  as a key, and whether a key is pending in the map that is open.

  * `Call` and `Datum.calls` are the calls of a datum, in order;
  * `Walk` is what a walk over calls keeps in mind, `Walk.fault?` what is wrong with
    the next call, and `Walk.faults` are all faults that the walk meets;
  * `Follows` ties a conversion to a walk: they meet the same first fault, or none
    (`Follows.bind`); `follows_toValue` says so of every datum;
  * `toValue_fails_at_first_fault`: a datum has no value iff its walk meets a fault,
    and then the first one is the answer, whatever calls come behind it.
-/
import ScriptLiteral.Datum.Convert

namespace ScriptLiteral

namespace Datum

/-! ## Calls -/

/-- A call by which a datum describes itself.  What holds data in it is opened by one
    call and closed by another, save that an optional datum and a wrapper are told by
    what they hold. -/
inductive Call where
  | bool (b : Bool)
  | integer (i : MachineInt)
  | single (s : Single)
  | double (d : Double)
  | char (c : Char)
  | text (s : String)
  | display (s : String)
  | bytes (bs : List UInt8)
  | absent
  | present
  | unit
  | unitRecord (name : String)
  | unitVariant (name variant : String)
  | wrapper (name : String)
  | wrapperVariant (name variant : String)
  | sequence
  | tuple
  | namedTuple (name : String)
  | tupleVariant (name variant : String)
  | record (name : String)
  | recordVariant (name variant : String)
  | map
  | failure (message : String)
  /-- The next datum is this field. -/
  | field (name : String)
  /-- This field is skipped. -/
  | skipped (name : String)
  /-- The next datum is a key. -/
  | key
  /-- The key is finished. -/
  | keyEnd
  /-- The next datum is the value of the pending key. -/
  | value
  /-- What was opened last is finished. -/
  | close

mutual

/-- The calls of a datum, in order. -/
def calls : Datum → List Call
  | bool b => [.bool b]
  | integer i => [.integer i]
  | single s => [.single s]
  | double d => [.double d]
  | char c => [.char c]
  | text s => [.text s]
  | display s => [.display s]
  | bytes bs => [.bytes bs]
  | absent => [.absent]
  | present d => .present :: calls d
  | unit => [.unit]
  | unitRecord name => [.unitRecord name]
  | unitVariant name variant => [.unitVariant name variant]
  | wrapper name d => .wrapper name :: calls d
  | wrapperVariant name variant d => .wrapperVariant name variant :: (calls d ++ [.close])
  | sequence items => .sequence :: (itemCalls items ++ [.close])
  | tuple items => .tuple :: (itemCalls items ++ [.close])
  | namedTuple name items => .namedTuple name :: (itemCalls items ++ [.close])
  | tupleVariant name variant items => .tupleVariant name variant :: (itemCalls items ++ [.close])
  | record name fields => .record name :: (fieldCalls fields ++ [.close])
  | recordVariant name variant fields =>
    .recordVariant name variant :: (fieldCalls fields ++ [.close])
  | map told => .map :: (mapCalls told ++ [.close])
  | failure message => [.failure message]

/-- The calls of items, from left to right. -/
def itemCalls : List Datum → List Call
  | [] => []
  | d :: ds => calls d ++ itemCalls ds

/-- The calls of fields, in order. -/
def fieldCalls : List (String × Option Datum) → List Call
  | [] => []
  | (name, none) :: rest => .skipped name :: fieldCalls rest
  | (name, some d) :: rest => .field name :: (calls d ++ fieldCalls rest)

/-- The calls of keys and values, in order; an entry is a key and then a value. -/
def mapCalls : List (MapCall Datum) → List Call
  | [] => []
  | .key k :: rest => .key :: (calls k ++ .keyEnd :: mapCalls rest)
  | .value v :: rest => .value :: (calls v ++ mapCalls rest)
  | .entry k v :: rest => .key :: (calls k ++ .keyEnd :: .value :: (calls v ++ mapCalls rest))

end

end Datum

/-! ## Walking over calls -/

/-- The type name of a value that cannot be a key, which is neither a text nor an
    integer. -/
def Value.misfit? : Value → Option String
  | .string _ => none
  | .integer _ => none
  | v => some v.typeName

/-- Something that was opened and is not closed yet. -/
structure Opened where
  /-- The type name of what it will be. -/
  typeName : String
  /-- In a map, whether a key is pending. -/
  pending : Bool

/-- What a walk keeps in mind. -/
structure Walk where
  /-- The type name of the last datum, if it cannot be a key. -/
  misfit? : Option String
  /-- What is open, from the inside out. -/
  opened : List Opened

namespace Walk

open Datum

/-- The walk before any call. -/
def start : Walk := ⟨none, []⟩

/-- A datum is finished. -/
def finish (w : Walk) (misfit? : Option String) : Walk := { w with misfit? }

/-- Something is opened; no key is pending in it. -/
def enter (w : Walk) (typeName : String) : Walk :=
  { w with opened := ⟨typeName, false⟩ :: w.opened }

/-- What was opened last is finished. -/
def leave (w : Walk) : Walk :=
  match w.opened with
  | [] => w
  | o :: outer => ⟨some o.typeName, outer⟩

/-- In the map that is open, a key is pending or not. -/
def setPending (w : Walk) (pending : Bool) : Walk :=
  match w.opened with
  | [] => w
  | o :: outer => { w with opened := { o with pending } :: outer }

/-- Whether a key is pending. -/
def isPending (w : Walk) : Bool := w.opened.head?.any (·.pending)

/-- What is wrong with the next call: a failure that the datum reports, the end of a
    key that is neither a text nor an integer, or a value without a key. -/
def fault? (w : Walk) : Call → Option DatumFault
  | .failure message => some (.reported message)
  | .keyEnd => w.misfit?.map .unusableKey
  | .value => if w.isPending then none else some .valueBeforeKey
  | _ => none

/-- The walk after a call.  An integer that 64 signed bits do not hold is a double. -/
def next (w : Walk) : Call → Walk
  | .bool _ => w.finish (some "boolean")
  | .integer i =>
    w.finish (if Int64.minValue.toInt ≤ i.val ∧ i.val ≤ Int64.maxValue.toInt then none
      else some "float")
  | .single _ => w.finish (some "float")
  | .double _ => w.finish (some "float")
  | .char _ => w.finish none
  | .text _ => w.finish none
  | .display _ => w.finish none
  | .bytes _ => w.finish (some "list")
  | .absent => w.finish (some "null")
  | .present => w
  | .unit => w.finish (some "null")
  | .unitRecord _ => w.finish (some "null")
  | .unitVariant .. => w.finish none
  | .wrapper _ => w
  | .wrapperVariant .. => w.enter "map"
  | .sequence => w.enter "list"
  | .tuple => w.enter "list"
  | .namedTuple _ => w.enter "list"
  | .tupleVariant .. => w.enter "map"
  | .record _ => w.enter "map"
  | .recordVariant .. => w.enter "map"
  | .map => w.enter "map"
  | .failure _ => w
  | .field _ => w
  | .skipped _ => w
  | .key => w
  | .keyEnd => w.setPending true
  | .value => w.setPending false
  | .close => w.leave

/-- The walk after calls. -/
def after (w : Walk) (cs : List Call) : Walk := cs.foldl next w

/-- The faults that a walk meets, in order.  It goes on behind a fault. -/
def faults (w : Walk) : List Call → List DatumFault
  | [] => []
  | c :: cs => (w.fault? c).toList ++ (w.next c).faults cs

theorem after_append (w : Walk) (cs cs' : List Call) :
    w.after (cs ++ cs') = (w.after cs).after cs' :=
  List.foldl_append

theorem faults_append (w : Walk) (cs cs' : List Call) :
    w.faults (cs ++ cs') = w.faults cs ++ (w.after cs).faults cs' := by
  induction cs generalizing w with
  | nil => rfl
  | cons c cs ih =>
    rw [List.cons_append, faults, faults, ih, List.append_assoc]
    rfl

theorem head?_faults_eq_some_iff {w : Walk} {cs : List Call} {f : DatumFault} :
    (w.faults cs).head? = some f ↔ ∃ done c later, cs = done ++ c :: later ∧
      w.faults done = [] ∧ (w.after done).fault? c = some f := by
  constructor
  · intro h
    induction cs generalizing w with
    | nil => nomatch h
    | cons c cs ih =>
      rw [faults] at h
      cases hc : w.fault? c with
      | some g =>
        rw [hc] at h
        exact ⟨[], c, cs, rfl, rfl, hc.trans h⟩
      | none =>
        rw [hc] at h
        obtain ⟨done, c', later, rfl, hdone, hfault⟩ := ih h
        refine ⟨c :: done, c', later, rfl, ?_, hfault⟩
        rw [faults, hc, hdone]
        rfl
  · rintro ⟨done, c, later, rfl, hdone, hfault⟩
    rw [faults_append, hdone, List.nil_append, faults, hfault]
    rfl

theorem isPending_eq {w : Walk} {o : Opened} {outer : List Opened} (h : w.opened = o :: outer) :
    w.isPending = o.pending := by
  rw [isPending, h]
  rfl

theorem leave_eq {w : Walk} {o : Opened} {outer : List Opened} (h : w.opened = o :: outer) :
    w.leave = ⟨some o.typeName, outer⟩ := by
  rw [leave, h]

theorem opened_setPending {w : Walk} {o : Opened} {outer : List Opened}
    (h : w.opened = o :: outer) (pending : Bool) :
    (w.setPending pending).opened = { o with pending } :: outer := by
  rw [setPending, h]

end Walk

/-- The faults of a datum, in the order of its calls. -/
def Datum.faults (d : Datum) : List DatumFault := Walk.start.faults d.calls

/-! ## Conversions that follow a walk -/

open Datum

/-- The conversion fails with the first fault that the walk over the calls meets, and
    if the walk meets none, result and walk are related at the end. -/
def Follows {α : Type} (x : Except DatumFault α) (w : Walk) (cs : List Call)
    (Q : α → Walk → Prop) : Prop :=
  match x with
  | .ok a => w.faults cs = [] ∧ Q a (w.after cs)
  | .error f => (w.faults cs).head? = some f

namespace Follows

variable {α β : Type} {x : Except DatumFault α} {g : α → Except DatumFault β} {w : Walk}
  {c : Call} {cs cs' : List Call} {P : α → Walk → Prop} {Q : β → Walk → Prop}

theorem pure {a : α} (h : P a w) : Follows (Pure.pure a) w [] P := ⟨rfl, h⟩

/-- One conversion after the other follows one sequence of calls after the other. -/
theorem bind (hx : Follows x w cs P) (hg : ∀ a w', P a w' → Follows (g a) w' cs' Q) :
    Follows (x >>= g) w (cs ++ cs') Q := by
  cases x with
  | error f =>
    -- the walk goes on, but behind the first fault
    show (w.faults (cs ++ cs')).head? = some f
    rw [Walk.faults_append, List.head?_append, show (w.faults cs).head? = some f from hx]
    rfl
  | ok a =>
    obtain ⟨hnone, ha⟩ := hx
    have hrest := hg a _ ha
    show Follows (g a) w (cs ++ cs') Q
    unfold Follows at hrest ⊢
    rw [Walk.faults_append, Walk.after_append, hnone, List.nil_append]
    exact hrest

theorem map {f : α → β} (hx : Follows x w cs P) (hf : ∀ a w', P a w' → Q (f a) w') :
    Follows (x >>= fun a => Pure.pure (f a)) w cs Q := by
  rw [← List.append_nil cs]
  exact bind hx fun a w' h => pure (hf a w' h)

theorem mono {P' : α → Walk → Prop} (hx : Follows x w cs P) (h : ∀ a w', P a w' → P' a w') :
    Follows x w cs P' := by
  have hmap := map (f := id) hx h
  rwa [show (x >>= fun a => Pure.pure (id a)) = x from bind_pure x] at hmap

theorem call (hc : w.fault? c = none) (hx : Follows x (w.next c) cs P) :
    Follows x w (c :: cs) P := by
  unfold Follows at hx ⊢
  rw [Walk.faults, hc]
  exact hx

theorem fault {f : DatumFault} (hc : w.fault? c = some f) :
    Follows (.error f : Except DatumFault α) w (c :: cs) P := by
  show (w.faults (c :: cs)).head? = some f
  rw [Walk.faults, hc]
  rfl

theorem enclosed {typeName : String} {f : α → Value} (hc : w.fault? c = none)
    (hopen : w.next c = w.enter typeName)
    (hx : Follows x (w.enter typeName) cs fun _ w' =>
      ∃ pending, w'.opened = ⟨typeName, pending⟩ :: w.opened)
    (hf : ∀ a, (f a).misfit? = some typeName) :
    Follows (x >>= fun a => Pure.pure (f a)) w (c :: (cs ++ [.close]))
      fun v w' => w' = w.finish v.misfit? := by
  refine call hc ?_
  rw [hopen]
  refine bind hx fun a w' hw' => ?_
  obtain ⟨pending, hopened⟩ := hw'
  refine call rfl (pure ?_)
  show w'.leave = _
  rw [Walk.leave_eq hopened, hf a]
  rfl

end Follows

namespace Datum

theorem misfit?_ofMachineInt (i : MachineInt) : (Value.ofMachineInt i).misfit? =
    if Int64.minValue.toInt ≤ i.val ∧ i.val ≤ Int64.maxValue.toInt then none
      else some "float" := by
  rw [Value.ofMachineInt, Value.ofInt]
  split <;> rfl

/-- The walk is inside a map, and a key is pending in it iff one is in the builder. -/
def InMap (outer : List Opened) (b : MapBuilder) (w : Walk) : Prop :=
  w.opened = ⟨"map", b.pending.isSome⟩ :: outer

section
variable {α : Type} {b : MapBuilder} {w : Walk} {outer : List Opened} {cs : List Call}
  {Q : α → Walk → Prop}

theorem follows_setKey {v : Value} {g : MapBuilder → Except DatumFault α}
    (hmap : InMap outer b w) (hmisfit : w.misfit? = v.misfit?)
    (hg : ∀ b' w', InMap outer b' w' → Follows (g b') w' cs Q) :
    Follows (b.setKey v >>= g) w (.keyEnd :: cs) Q := by
  have hfault : w.fault? .keyEnd = v.misfit?.map .unusableKey := by rw [← hmisfit]; rfl
  have hnext : ∀ k, InMap outer { b with pending := some k } (w.next .keyEnd) :=
    fun _ => Walk.opened_setPending hmap true
  cases v with
  | string s => exact .call hfault (hg _ _ (hnext s))
  | integer i => exact .call hfault (hg _ _ (hnext _))
  | _ => exact .fault hfault

theorem follows_takeKey {g : String × MapBuilder → Except DatumFault α}
    (hmap : InMap outer b w)
    (hg : ∀ k b' w', InMap outer b' w' → Follows (g (k, b')) w' cs Q) :
    Follows (b.takeKey >>= g) w (.value :: cs) Q := by
  have hpending : w.isPending = b.pending.isSome := Walk.isPending_eq hmap
  have hnext : InMap outer { b with pending := none } (w.next .value) :=
    Walk.opened_setPending hmap false
  obtain ⟨entries, _ | k⟩ := b
  · refine .fault ?_
    rw [Walk.fault?, hpending]
    rfl
  · refine .call ?_ (hg k _ _ hnext)
    rw [Walk.fault?, hpending]
    rfl

end

/-- A datum inside a map leaves the map as it was. -/
theorem InMap.finish {b : MapBuilder} {w : Walk} {outer : List Opened} (h : InMap outer b w)
    (misfit? : Option String) : InMap outer b (w.finish misfit?) := h

mutual

/-- **Converting a datum follows the walk over its calls.**  The walk leaves open what
    was open, and knows whether the value can be a key. -/
theorem follows_toValue : ∀ (d : Datum) (w : Walk),
    Follows d.toValue w d.calls fun v w' => w' = w.finish v.misfit?
  | .bool _, _ => .call rfl (.pure rfl)
  | .integer i, w => .call rfl (.pure (by rw [misfit?_ofMachineInt]; rfl))
  | .single _, _ => .call rfl (.pure rfl)
  | .double _, _ => .call rfl (.pure rfl)
  | .char _, _ => .call rfl (.pure rfl)
  | .text _, _ => .call rfl (.pure rfl)
  | .display _, _ => .call rfl (.pure rfl)
  | .bytes _, _ => .call rfl (.pure rfl)
  | .absent, _ => .call rfl (.pure rfl)
  | .present d, w => .call rfl (follows_toValue d w)
  | .unit, _ => .call rfl (.pure rfl)
  | .unitRecord _, _ => .call rfl (.pure rfl)
  | .unitVariant .., _ => .call rfl (.pure rfl)
  | .wrapper _ d, w => .call rfl (follows_toValue d w)
  | .wrapperVariant _ _ d, w =>
    .enclosed rfl rfl ((follows_toValue d _).mono fun _ _ h => ⟨false, by rw [h]; rfl⟩) fun _ => rfl
  | .sequence items, w =>
    .enclosed rfl rfl ((follows_itemValues items _).mono fun _ _ h => ⟨false, h⟩) fun _ => rfl
  | .tuple items, w =>
    .enclosed rfl rfl ((follows_itemValues items _).mono fun _ _ h => ⟨false, h⟩) fun _ => rfl
  | .namedTuple _ items, w =>
    .enclosed rfl rfl ((follows_itemValues items _).mono fun _ _ h => ⟨false, h⟩) fun _ => rfl
  | .tupleVariant _ _ items, w =>
    .enclosed rfl rfl ((follows_itemValues items _).mono fun _ _ h => ⟨false, h⟩) fun _ => rfl
  | .record _ fields, w =>
    .enclosed rfl rfl ((follows_insertFields fields _ _).mono fun _ _ h => ⟨false, h⟩) fun _ => rfl
  | .recordVariant _ _ fields, w =>
    .enclosed rfl rfl ((follows_insertFields fields _ _).mono fun _ _ h => ⟨false, h⟩) fun _ => rfl
  | .map told, w =>
    .enclosed rfl rfl
      ((follows_runCalls told .empty (by rfl)).mono fun b _ h => ⟨b.pending.isSome, h⟩) fun _ => rfl
  | .failure _, _ => .fault rfl

theorem follows_itemValues : ∀ (items : List Datum) (w : Walk),
    Follows (itemValues items) w (itemCalls items) fun _ w' => w'.opened = w.opened
  | [], _ => .pure rfl
  | d :: ds, w => by
    refine (follows_toValue d w).bind fun v w' hw' => ?_
    subst hw'
    exact (follows_itemValues ds _).map fun _ _ h => h

theorem follows_insertFields : ∀ (fields : List (String × Option Datum)) (m : OrderedMap Value)
    (w : Walk), Follows (insertFields m fields) w (fieldCalls fields)
      fun _ w' => w'.opened = w.opened
  | [], _, _ => .pure rfl
  | (_, none) :: rest, m, w => .call rfl (follows_insertFields rest m w)
  | (name, some d) :: rest, m, w => by
    refine .call rfl ((follows_toValue d w).bind fun v w' hw' => ?_)
    subst hw'
    exact follows_insertFields rest _ _

theorem follows_runCalls : ∀ (told : List (MapCall Datum)) (b : MapBuilder) {w : Walk}
    {outer : List Opened}, InMap outer b w →
      Follows (runCalls b told) w (mapCalls told) (InMap outer)
  -- what carries the induction: the walk knows whether a key is pending
  | [], _, _, _, hmap => .pure hmap
  | .key k :: rest, b, w, outer, hmap => by
    refine .call rfl ((follows_toValue k w).bind fun v w₁ hw₁ => ?_)
    subst hw₁
    exact follows_setKey (hmap.finish _) rfl fun b' _ hmap' => follows_runCalls rest b' hmap'
  | .value v :: rest, b, w, outer, hmap => by
    refine follows_takeKey hmap fun k b' w₁ hmap' => ?_
    refine (follows_toValue v w₁).bind fun x w₂ hw₂ => ?_
    subst hw₂
    exact follows_runCalls rest (b'.insert k x) (hmap'.finish _)
  | .entry k v :: rest, b, w, outer, hmap => by
    refine .call rfl ((follows_toValue k w).bind fun key w₁ hw₁ => ?_)
    subst hw₁
    refine follows_setKey (hmap.finish _) rfl fun b₁ w₂ hmap₁ => ?_
    refine follows_takeKey hmap₁ fun k b₂ w₃ hmap₂ => ?_
    refine (follows_toValue v w₃).bind fun x w₄ hw₄ => ?_
    subst hw₄
    exact follows_runCalls rest (b₂.insert k x) (hmap₂.finish _)

end

/-! ## The first fault -/

theorem toValue_eq_error_iff {d : Datum} {f : DatumFault} :
    d.toValue = .error f ↔ d.faults.head? = some f := by
  have hfollows := follows_toValue d .start
  unfold Follows at hfollows
  unfold faults
  cases hd : d.toValue with
  | error f' =>
    rw [hd] at hfollows
    rw [hfollows, Except.error.injEq, Option.some_inj]
  | ok v =>
    rw [hd] at hfollows
    rw [hfollows.1]
    exact ⟨nofun, nofun⟩

theorem toValue_isOk_iff {d : Datum} : (∃ v, d.toValue = .ok v) ↔ d.faults = [] := by
  rw [← List.head?_eq_none_iff, Option.eq_none_iff_forall_ne_some]
  simp only [ne_eq, ← toValue_eq_error_iff]
  cases d.toValue with
  | error f => simp
  | ok v => simp

/-- **The first fault in the calls of a datum is the answer.**

    A datum has no value iff the walk over its calls meets a fault, and the answer is
    the fault of the first call with something wrong: a reported failure, the end of
    a key that is neither a text nor an integer, or a value without a key.  If nothing
    is wrong, there is a value.

    Behind that call anything may follow: every datum whose calls begin alike, up to
    a fault, has the same answer. -/
theorem toValue_fails_at_first_fault (d : Datum) :
    (∀ f, d.toValue = .error f ↔ ∃ done c later, d.calls = done ++ c :: later ∧
      Walk.start.faults done = [] ∧ (Walk.start.after done).fault? c = some f) ∧
      ((∃ v, d.toValue = .ok v) ↔ d.faults = []) ∧
      ∀ done later, d.calls = done ++ later → Walk.start.faults done ≠ [] →
        ∀ (d' : Datum) (later' : List Call), d'.calls = done ++ later' →
          d'.toValue = d.toValue := by
  refine ⟨fun f => ?_, toValue_isOk_iff, fun done later hd hfault d' later' hd' => ?_⟩
  · rw [toValue_eq_error_iff]
    exact Walk.head?_faults_eq_some_iff
  · obtain ⟨f, fs, hfs⟩ := List.exists_cons_of_ne_nil hfault
    have hfirst : ∀ {d : Datum} {later : List Call}, d.calls = done ++ later →
        d.toValue = .error f := by
      intro d later hd
      rw [toValue_eq_error_iff, faults, hd, Walk.faults_append, hfs]
      rfl
    rw [hfirst hd, hfirst hd']

/-- A map that reports a failure inside a value, with a value without key behind it. -/
def failingMap : Datum :=
  .map [.entry (.text "a") (.sequence [.bool true, .failure "spent", .unit]), .value .unit]

/-- A map that begins like it, with another failure behind. -/
def failingLikewise : Datum :=
  .map [.key (.text "a"), .value (.sequence [.bool true, .failure "spent", .failure "lost"])]

theorem toValue_fails_at_first_fault_likewise :
    failingMap.faults = [.reported "spent", .valueBeforeKey] ∧
      failingLikewise.toValue = failingMap.toValue ∧
        failingMap.toValue = .error (.reported "spent") := by
  have hdone : Walk.start.faults [.map, .key, .text "a", .keyEnd, .value, .sequence, .bool true,
      .failure "spent"] ≠ [] := nofun
  obtain ⟨-, -, hsame⟩ := toValue_fails_at_first_fault failingMap
  exact ⟨rfl, hsame _ [.unit, .close, .value, .unit, .close] rfl hdone failingLikewise
    [.failure "lost", .close, .close] rfl, rfl⟩

end Datum

end ScriptLiteral
