/-
  Script literals — points in time, host objects and their capabilities.

  A timestamp is a count of seconds since the epoch and a number of
  microseconds, which may exceed a second.  `Timestamp.totalMicros` is its exact
  distance from the epoch and `Timestamp.milliseconds` the decimal of the same
  distance in milliseconds, which has at most three places.

  A host object has an identity, a type name and up to four capabilities, which
  are ways to become a literal.  `resolution?` is what the object resolves to:
  the first capability it has, in the order

  1. a substitute value to write in its place,
  2. an export of itself as a value,
  3. a text of its own, written as it stands,
  4. an instant.

  `HostObject.ofDate` is the object of a date on one of three clocks.
-/
import ScriptLiteral.Decimal

namespace ScriptLiteral

/-! ## Points in time -/

/-- Seconds since the epoch and microseconds added to them.  A leap second has a
    million microseconds or more. -/
structure Timestamp where
  seconds : Int64
  micros : UInt32
deriving DecidableEq

namespace Timestamp

/-- The timestamp of a count of seconds and nanoseconds, rounded down to
    microseconds. -/
def ofNanos (seconds : Int64) (nanos : UInt32) : Timestamp := ⟨seconds, nanos / 1000⟩

/-- Microseconds since the epoch. -/
def totalMicros (t : Timestamp) : Int := t.seconds.toInt * 1000000 + t.micros.toNat

/-- Milliseconds since the epoch, exactly. -/
def milliseconds (t : Timestamp) : Decimal :=
  ⟨decide (t.totalMicros < 0), t.totalMicros.natAbs, 3⟩

theorem milliseconds_inj {t u : Timestamp} :
    t.milliseconds = u.milliseconds ↔ t.totalMicros = u.totalMicros := by
  simp only [milliseconds, Decimal.mk.injEq, decide_eq_decide, and_true]
  omega

end Timestamp

/-! ## Capabilities -/

/-- The ways in which an object can become a literal, in order of precedence. -/
inductive Capability where
  | customSerializable
  | mapExportable
  | textRenderable
  | temporalValue
deriving DecidableEq

/-- The name of a capability in messages and events. -/
def Capability.name : Capability → String
  | customSerializable => "CustomSerializable"
  | mapExportable => "MapExportable"
  | textRenderable => "TextRenderable"
  | temporalValue => "TemporalValue"

/-- What an object resolves to; `α` are the values. -/
inductive Resolution (α : Type) where
  /-- A value to write instead of the object; a text among them is source text. -/
  | substitute (value : α)
  /-- A value to write as usual. -/
  | exported (value : α)
  /-- Source text. -/
  | rendered (text : String)
  /-- A point in time. -/
  | instant (time : Timestamp)

/-- The capability that a resolution comes from. -/
def Resolution.capability {α : Type} : Resolution α → Capability
  | substitute _ => .customSerializable
  | exported _ => .mapExportable
  | rendered _ => .textRenderable
  | instant _ => .temporalValue

/-! ## Objects -/

/-- A host object.  Its identity tells it from every other object; an absent
    capability is `none`. -/
structure HostObject (α : Type) where
  identity : Nat
  typeName : String
  debugText : String
  substitute : Option α := none
  exported : Option α := none
  rendered : Option String := none
  instant : Option Timestamp := none

namespace HostObject

variable {α : Type}

/-- **Objects by their first capability**, those without any apart. -/
@[elab_as_elim]
theorem firstCases {motive : HostObject α → Prop}
    (substitute : ∀ identity typeName debugText v exported rendered instant,
      motive ⟨identity, typeName, debugText, some v, exported, rendered, instant⟩)
    (exported : ∀ identity typeName debugText v rendered instant,
      motive ⟨identity, typeName, debugText, none, some v, rendered, instant⟩)
    (rendered : ∀ identity typeName debugText source instant,
      motive ⟨identity, typeName, debugText, none, none, some source, instant⟩)
    (instant : ∀ identity typeName debugText time,
      motive ⟨identity, typeName, debugText, none, none, none, some time⟩)
    (without : ∀ identity typeName debugText,
      motive ⟨identity, typeName, debugText, none, none, none, none⟩)
    (o : HostObject α) : motive o :=
  match o with
  | ⟨_, _, _, some _, _, _, _⟩ => substitute ..
  | ⟨_, _, _, none, some _, _, _⟩ => exported ..
  | ⟨_, _, _, none, none, some _, _⟩ => rendered ..
  | ⟨_, _, _, none, none, none, some _⟩ => instant ..
  | ⟨_, _, _, none, none, none, none⟩ => without ..

/-- What the object resolves to: its first capability. -/
def resolution? (o : HostObject α) : Option (Resolution α) :=
  match o.substitute, o.exported, o.rendered, o.instant with
  | some v, _, _, _ => some (.substitute v)
  | none, some v, _, _ => some (.exported v)
  | none, none, some s, _ => some (.rendered s)
  | none, none, none, some t => some (.instant t)
  | none, none, none, none => none

theorem resolution?_eq_none_iff {o : HostObject α} :
    o.resolution? = none ↔
      o.substitute = none ∧ o.exported = none ∧ o.rendered = none ∧ o.instant = none := by
  unfold resolution?
  split <;> simp_all

end HostObject

/-! ## Dates -/

/-- The clocks that a date can belong to. -/
inductive Clock where
  /-- Universal time. -/
  | utc
  /-- A fixed distance from universal time. -/
  | fixedOffset
  /-- No zone, taken as universal time. -/
  | naive
deriving DecidableEq

/-- The type name of the dates of a clock. -/
def Clock.typeName : Clock → String
  | utc => "chrono::datetime::DateTime<chrono::offset::utc::Utc>"
  | fixedOffset => "chrono::datetime::DateTime<chrono::offset::fixed::FixedOffset>"
  | naive => "chrono::naive::datetime::NaiveDateTime"

/-- The object of a date: an instant and nothing else, not even a debug text.
    The clock shows in the type name only. -/
def HostObject.ofDate {α : Type} (identity : Nat) (clock : Clock) (time : Timestamp) :
    HostObject α where
  identity := identity
  typeName := clock.typeName
  debugText := ""
  instant := some time

end ScriptLiteral
