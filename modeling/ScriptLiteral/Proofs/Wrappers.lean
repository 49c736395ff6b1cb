/-
  Script literals — objects around a value.

  An object that has a substitute or an export stands for another value, and this value
  can be such an object again.  The literal is that of the value in the innermost object,
  however many objects stand around it and whatever else they can do; only a text as the
  substitute of the innermost is source text.

  * `Wrapper` is an object without the value that it stands for, `wrapAll` a value in a
    chain of wrappers; `exists_wrapper_iff`: the wrappers are the objects that resolve to
    a value;
  * `literal_wrapper`: one wrapper, by whether it stands for a text;
  * `literal_wrapAll`: a chain of them.
-/
import ScriptLiteral.Proofs.Composition

namespace ScriptLiteral

namespace Value

/-! ## Wrappers -/

/-- An object that stands for a value, the value left out.  Its capabilities of a lower
    rank are free. -/
inductive Wrapper where
  /-- The value is the substitute of the object. -/
  | substituting (o : HostObject Value)
  /-- The value is the export of the object, which has no substitute. -/
  | exporting (o : HostObject Value)

namespace Wrapper

/-- The object around a value. -/
def around (v : Value) : Wrapper → HostObject Value
  | substituting o => { o with substitute := some v }
  | exporting o => { o with substitute := none, exported := some v }

/-- What the object around a value resolves to. -/
def resolution (v : Value) : Wrapper → Resolution Value
  | substituting _ => .substitute v
  | exporting _ => .exported v

theorem resolution?_around (v : Value) (w : Wrapper) :
    (w.around v).resolution? = some (w.resolution v) := by
  cases w <;> rfl

end Wrapper

/-- **The objects that resolve to a value are the wrappers around it.** -/
theorem exists_wrapper_iff {o : HostObject Value} {v : Value} :
    (∃ w : Wrapper, o = w.around v) ↔ ∃ r, o.resolution? = some r ∧ r.nested? = some v := by
  constructor
  · rintro ⟨w, rfl⟩
    exact ⟨_, w.resolution?_around v, by cases w <;> rfl⟩
  · rintro ⟨r, hr, hv⟩
    cases o using HostObject.firstCases with
    | substitute identity typeName debugText u exported rendered instant =>
      cases hr; cases hv
      exact ⟨.substituting ⟨identity, typeName, debugText, none, exported, rendered, instant⟩, rfl⟩
    | exported identity typeName debugText u rendered instant =>
      cases hr; cases hv
      exact ⟨.exporting ⟨identity, typeName, debugText, none, none, rendered, instant⟩, rfl⟩
    | rendered | instant =>
      -- there is no value to stand for
      cases hr; cases hv
    | without => cases hr

theorem literal_wrapper (v : Value) (w : Wrapper) :
    (Value.object (w.around v)).literal =
      match w, v with
      | .substituting _, .string source => .ok source
      | _, v => v.literal := by
  rw [literal_object, w.resolution?_around]
  cases w with
  | substituting o => cases v <;> rfl
  | exporting o => rfl

/-! ## Chains -/

/-- A value in a chain of wrappers, the innermost first. -/
def wrapAll (v : Value) (wrappers : List Wrapper) : Value :=
  wrappers.foldl (fun v w => .object (w.around v)) v

/-- Around an object no wrapper changes the literal: what it stands for is no text. -/
theorem literal_wrapAll_object (o : HostObject Value) (wrappers : List Wrapper) :
    (wrapAll (.object o) wrappers).literal = (Value.object o).literal := by
  induction wrappers generalizing o with
  | nil => rfl
  | cons w wrappers ih =>
    have hw : (Value.object (w.around (.object o))).literal = (Value.object o).literal := by
      rw [literal_wrapper]
      cases w <;> rfl
    rw [wrapAll, List.foldl_cons, ← wrapAll, ih, hw]

/-- **Only the innermost wrapper can show in the literal.**

    Put a value into any chain of wrappers.  If the value is a text and the substitute of
    the innermost wrapper, the literal is this text as it stands.  In all other cases it is
    the literal of the value, or its fault; whatever the wrappers could do besides plays no
    part.  And every object that resolves to a value is a wrapper around it. -/
theorem literal_wrapAll (v : Value) (innermost : Wrapper) (outer : List Wrapper) :
    ((wrapAll v (innermost :: outer)).literal =
      match innermost, v with
      | .substituting _, .string source => .ok source
      | _, v => v.literal) ∧
      ∀ (o : HostObject Value) (u : Value), (∃ w : Wrapper, o = w.around u) ↔
        ∃ r, o.resolution? = some r ∧ r.nested? = some u := by
  refine ⟨?_, fun o u => exists_wrapper_iff⟩
  rw [wrapAll, List.foldl_cons, ← wrapAll, literal_wrapAll_object, literal_wrapper]

/-- An object whose export has no literal. -/
def socketHost : HostObject Value where
  identity := 0
  typeName := "Host"
  debugText := ""
  exported := some (.resource "socket")
  rendered := some "host"

/-- The text is quoted for the inner export, and an outer substitute leaves it so. -/
example : (wrapAll (.string "f()") [.exporting socketHost, .substituting socketHost]).literal =
    .ok "'f()'" := by rfl

end Value

end ScriptLiteral
