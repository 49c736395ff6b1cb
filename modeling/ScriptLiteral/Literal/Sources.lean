/-
  Script literals — literals of JSON text and of self-describing data.

  Both are turned into a value, and the value is written.  `LiteralError` joins
  the three kinds of failure: a JSON text that is rejected, a datum with a fault,
  a value without literal.
-/
import ScriptLiteral.Datum.Convert
import ScriptLiteral.Json.Basic
import ScriptLiteral.Json.Reader
import ScriptLiteral.Literal.Emit

namespace ScriptLiteral

/-- Why there is no literal. -/
inductive LiteralError where
  /-- The value cannot be written. -/
  | fault (fault : Fault)
  /-- The text is not JSON. -/
  | json (error : Json.Error)
  /-- The datum has no value. -/
  | datum (fault : DatumFault)
deriving DecidableEq

/-- The message of an error. -/
def LiteralError.message : LiteralError → String
  | fault f => f.message
  | json e => "JSON parse error: " ++ e.message
  | datum f => f.message

/-- The literal of a JSON text. -/
def Json.literalOfText (text : String) : Except LiteralError String :=
  match Json.parse text with
  | .error e => .error (.json e)
  | .ok j => j.toValue.literal.mapError .fault

/-- The literal of a datum. -/
def Datum.literal (d : Datum) : Except LiteralError String :=
  match d.toValue with
  | .error f => .error (.datum f)
  | .ok v => v.literal.mapError .fault

end ScriptLiteral
