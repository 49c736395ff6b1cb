/-
  Script literals — a literal in the making.

  Writing a literal appends to a text, reports on the way each object that is
  resolved, and stops at the first fault.

  * `Fault` is what makes a value impossible to write;
  * `Event` is what is reported: a resolved object, or the failure at the end;
  * `Draft` is the text and the events so far, and `Emit` the action that
    extends a draft and may fail.  A failed action leaves the draft as it was at
    the fault, so the events up to it are not lost.
-/
import ScriptLiteral.HostObject

namespace ScriptLiteral

/-! ## Faults -/

/-- A value that has no literal. -/
inductive Fault where
  /-- A resource of the host. -/
  | unsupportedType (typeName : String)
  /-- An object without capabilities. -/
  | unsupportedObject (typeName : String)
deriving DecidableEq

/-- The message of a fault. -/
def Fault.message : Fault → String
  | unsupportedType name => "cannot serialize a value of type " ++ name
  | unsupportedObject name =>
    "instance of " ++ name ++ " cannot be serialized: it implements none of " ++
      "CustomSerializable, MapExportable, TextRenderable or TemporalValue"

/-! ## Events -/

/-- What is reported while a literal is written. -/
inductive Event where
  /-- An object of this type is about to be written by this capability. -/
  | resolving (typeName : String) (capability : Capability)
  /-- The value has no literal, for this reason. -/
  | failed (fault : Fault)
deriving DecidableEq

namespace Event

/-- The severity of an event. -/
def level : Event → String
  | resolving .. => "TRACE"
  | failed _ => "DEBUG"

/-- The message of an event. -/
def message : Event → String
  | resolving .. => "resolving object"
  | failed _ => "literal serialization failed"

/-- The named fields of an event. -/
def fields : Event → List (String × String)
  | resolving typeName capability => [("object", typeName), ("capability", capability.name)]
  | failed fault => [("error", fault.message)]

end Event

/-! ## Drafts -/

/-- The text written and the events reported so far. -/
structure Draft where
  text : String
  events : Array Event

/-- The draft before anything is written. -/
def Draft.empty : Draft := ⟨"", #[]⟩

/-- An action that extends a draft or stops at a fault. -/
abbrev Emit := EStateM Fault Draft

namespace Emit

/-- Append a text. -/
def put (s : String) : Emit Unit := modify fun d => { d with text := d.text ++ s }

/-- Report an event. -/
def report (e : Event) : Emit Unit := modify fun d => { d with events := d.events.push e }

end Emit

end ScriptLiteral
