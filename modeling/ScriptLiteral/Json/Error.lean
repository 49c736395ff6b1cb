/-
  Script literals — why and where a JSON text is rejected.

  * `Cause` is the reason, with its message;
  * `Failure` is what a reader meets: the cause, the text not yet taken, and how
    many bytes of it count as consumed;
  * `Position` is a line and column, counted in bytes, and `Position.after` the
    one after some bytes of a text;
  * `Error` is a cause with its position: the answer to a rejected text.
-/
namespace ScriptLiteral

namespace Json

/-! ## Causes -/

/-- The reasons for which a text is rejected. -/
inductive Cause where
  | endInArray
  | endInObject
  | endInString
  | endInValue
  | expectedColon
  | expectedArrayEnd
  | expectedObjectEnd
  | expectedWord
  | expectedValue
  | invalidEscape
  | invalidNumber
  | numberOutOfRange
  | unpairedSurrogate
  | endOfSurrogate
  | controlCharacter
  | keyNotString
  | trailingComma
  | trailingCharacters
  | tooDeep
deriving DecidableEq

/-- The message of a cause. -/
def Cause.message : Cause → String
  | endInArray => "EOF while parsing a list"
  | endInObject => "EOF while parsing an object"
  | endInString => "EOF while parsing a string"
  | endInValue => "EOF while parsing a value"
  | expectedColon => "expected `:`"
  | expectedArrayEnd => "expected `,` or `]`"
  | expectedObjectEnd => "expected `,` or `\x7d`"
  | expectedWord => "expected ident"
  | expectedValue => "expected value"
  | invalidEscape => "invalid escape"
  | invalidNumber => "invalid number"
  | numberOutOfRange => "number out of range"
  | unpairedSurrogate => "lone leading surrogate in hex escape"
  | endOfSurrogate => "unexpected end of hex escape"
  | controlCharacter => "control character (\\u0000-\\u001F) found while parsing a string"
  | keyNotString => "key must be a string"
  | trailingComma => "trailing comma"
  | trailingCharacters => "trailing characters"
  | tooDeep => "recursion limit exceeded"

/-! ## Failures -/

/-- What stops a reader: a cause, the text it had not taken, and the number of
    bytes of that text which count as consumed. -/
structure Failure where
  cause : Cause
  rest : List Char
  past : Nat

namespace Failure

/-- A failure in front of the rest: nothing of it counts as consumed. -/
def before (cause : Cause) (rest : List Char) : Failure := ⟨cause, rest, 0⟩

/-- A failure at the first byte of the rest, which counts as consumed. -/
def atByte (cause : Cause) (rest : List Char) : Failure := ⟨cause, rest, 1⟩

/-- A failure at the end of the text. -/
def atEnd (cause : Cause) : Failure := ⟨cause, [], 0⟩

end Failure

/-! ## Positions -/

/-- The bytes of a text. -/
def bytes (text : List Char) : List UInt8 := text.flatMap String.utf8EncodeChar

/-- The number of bytes of a text. -/
def byteCount (text : List Char) : Nat := (bytes text).length

/-- A place in a text: the line, from one on, and the number of bytes of the
    line in front of the place. -/
structure Position where
  line : Nat
  column : Nat
deriving DecidableEq

/-- The line feed. -/
def lineFeed : UInt8 := 10

/-- The place after some bytes: one line per line feed among them, and as many
    columns as bytes follow the last of these. -/
def Position.after (consumed : List UInt8) : Position :=
  ⟨1 + consumed.count lineFeed, (consumed.reverse.takeWhile (· != lineFeed)).length⟩

/-- The number of bytes that count as consumed when a reader of `text` fails. -/
def Failure.offset (text : List Char) (failure : Failure) : Nat :=
  byteCount text - byteCount failure.rest + min failure.past (byteCount failure.rest)

/-! ## Errors -/

/-- Why and where a text is rejected. -/
structure Error where
  cause : Cause
  position : Position
deriving DecidableEq

namespace Error

/-- The answer to a text on which a reader fails. -/
def ofFailure (text : List Char) (failure : Failure) : Error :=
  ⟨failure.cause, .after ((bytes text).take (failure.offset text))⟩

/-- The text of a number of lines or columns. -/
def count (n : Nat) : String := String.ofList (Nat.toDigits 10 n)

/-- The message of an error: cause, line and column. -/
def message (e : Error) : String :=
  e.cause.message ++ " at line " ++ count e.position.line ++
    " column " ++ count e.position.column

end Error

end Json

end ScriptLiteral
