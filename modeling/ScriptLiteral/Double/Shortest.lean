/-
  Script literals — the shortest decimal that reads back as a double.

  The reals that round to the double of rank `r` form an interval between two
  midpoints, whose ends belong to it iff `r` is even.  The shortest decimal is
  searched on the grids `10 ^ t`, from the coarsest down: on each grid only the
  two neighbours of the double itself can be the answer, and the first grid with
  a neighbour inside the interval wins.  Of two neighbours inside, the nearer is
  taken, and the upper one if they are equally near.

  * `ReadsBack r d t` says that `d · 10 ^ t` lies in the interval of `r`;
  * `neighbour? r t` is the choice on one grid;
  * `shortest r` is the pair of digits and exponent, `Double.text` the text of a
    double: a plain decimal, or a word for the numbers that have none.
-/
import ScriptLiteral.Decimal
import ScriptLiteral.Double.Basic

namespace ScriptLiteral

namespace Double

/-! ## The interval of a double -/

/-- The decimal `d · 10 ^ t` rounds to the double of rank `r`: it lies between
    the midpoints to the neighbouring ranks, or on one of them if `r` is even. -/
def ReadsBack (r d : Nat) (t : Int) : Prop :=
  let point := d * tenTo t.toNat * (2 * unity)
  let low := (Rank.quanta 52 (r - 1) + Rank.quanta 52 r) * tenTo (-t).toNat
  let high := (Rank.quanta 52 r + Rank.quanta 52 (r + 1)) * tenTo (-t).toNat
  if r % 2 = 0 then low ≤ point ∧ point ≤ high else low < point ∧ point < high

instance (r d : Nat) (t : Int) : Decidable (ReadsBack r d t) := by
  unfold ReadsBack
  dsimp only
  infer_instance

/-! ## One grid -/

/-- The double of rank `r` in units of `10 ^ t`, as numerator and denominator. -/
def onGrid (r : Nat) (t : Int) : Nat × Nat :=
  (Rank.quanta 52 r * tenTo (-t).toNat, tenTo t.toNat * unity)

/-- The grid point below or at the double. -/
def below (r : Nat) (t : Int) : Nat := (onGrid r t).1 / (onGrid r t).2

/-- The grid point nearest to the double, the upper one of two equally near. -/
def nearestPoint (r : Nat) (t : Int) : Nat :=
  let (num, den) := onGrid r t
  if 2 * (num % den) < den then num / den else num / den + 1

/-- The better of the double's two neighbours on the grid `10 ^ t`, if one of
    them reads back. -/
def neighbour? (r : Nat) (t : Int) : Option Nat :=
  let d := below r t
  if ReadsBack r d t then
    if ReadsBack r (d + 1) t then some (nearestPoint r t) else some d
  else if ReadsBack r (d + 1) t then some (d + 1) else none

theorem nearestPoint_eq_below_or (r : Nat) (t : Int) :
    nearestPoint r t = below r t ∨ nearestPoint r t = below r t + 1 := by
  unfold nearestPoint below
  dsimp only
  split
  · exact .inl rfl
  · exact .inr rfl

theorem readsBack_of_neighbour? {r d : Nat} {t : Int} (h : neighbour? r t = some d) :
    ReadsBack r d t := by
  unfold neighbour? at h
  dsimp only at h
  split at h
  · next h₁ =>
    split at h
    · next h₂ =>
      obtain rfl := Option.some.inj h
      rcases nearestPoint_eq_below_or r t with e | e
      · rwa [e]
      · rwa [e]
    · obtain rfl := Option.some.inj h
      exact h₁
  · split at h
    · next h₂ =>
      obtain rfl := Option.some.inj h
      exact h₂
    · nomatch h

/-! ## The search -/

/-- The number of decimal digits of the whole part of `n / m`, or, below one,
    minus the number of zeros that follow the point: the least `k` with
    `n / m < 10 ^ k`, for positive `n`. -/
def magnitude (n m : Nat) : Int :=
  if m ≤ n then (Nat.toDigits 10 (n / m)).length
  else 1 - (Nat.toDigits 10 ((m - 1) / n)).length

/-- Try the grid `10 ^ t` and at most `fuel` finer ones.  On the last grid the
    nearest point is taken as it is. -/
def shortestFrom (r : Nat) : Nat → Int → Nat × Int
  | 0, t => (nearestPoint r t, t)
  | fuel + 1, t =>
    match neighbour? r t with
    | some d => (d, t)
    | none => shortestFrom r fuel (t - 1)

/-- The shortest decimal `d · 10 ^ t` that reads back as the double of positive
    rank `r`.  Seventeen digits always suffice, so sixteen grids are tried before
    the last. -/
def shortest (r : Nat) : Nat × Int :=
  shortestFrom r 16 (magnitude (Rank.quanta 52 r) unity - 1)

/-! ## Text -/

/-- The shortest decimal of a finite double.  A zero keeps its sign. -/
def decimal (d : Double) : Decimal :=
  if d.rank = 0 then ⟨d.negative, 0, 0⟩ else
    let (digits, exponent) := shortest d.rank
    ⟨d.negative, digits * tenTo exponent.toNat, (-exponent).toNat⟩

/-- The text of a double in a script: its shortest plain decimal, or the name of
    the global for infinity and for NaN. -/
def text (d : Double) : String :=
  if d.IsNaN then "NaN"
  else if d.IsFinite then d.decimal.text
  else if d.negative then "-Infinity" else "Infinity"

end Double

end ScriptLiteral
