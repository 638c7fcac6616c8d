/-
# What can be wrong with a JSON text

A reader that refuses a text says what it met and where. The place is a line,
counted from 1, and a column, the number of bytes since that line began.

Key definitions: `Json.Fault`, `Json.Error`, `Json.Error.message`, `Json.Error.at`.
-/

namespace PathQuery
namespace Json

/-- What a reader of JSON text refuses. -/
inductive Fault
  /-- The text ends where a value should stand. -/
  | endInValue
  /-- The text ends inside an array. -/
  | endInList
  /-- The text ends inside an object. -/
  | endInObject
  /-- The text ends inside a string. -/
  | endInString
  /-- No value begins this way. -/
  | noValue
  /-- A word that begins like `null`, `true` or `false` and goes on otherwise. -/
  | noWord
  /-- A number without the digit it needs, or with a digit after its leading zero. -/
  | badNumber
  /-- A number too large for a double. -/
  | numberTooLarge
  /-- An element of an array that is followed by neither a comma nor the end. -/
  | noListSeparator
  /-- A member of an object that is followed by neither a comma nor the end. -/
  | noObjectSeparator
  /-- A comma before the end of an array or an object. -/
  | trailingComma
  /-- A member whose name is not a string. -/
  | keyNotString
  /-- A name without its colon. -/
  | noColon
  /-- Text after the value. -/
  | trailingText
  /-- A control character inside a string. -/
  | rawControl
  /-- A backslash with nothing that it may escape. -/
  | badEscape
  /-- Half of a surrogate pair without the other half. -/
  | loneSurrogate
  /-- The first half of a surrogate pair, not followed by another escape. -/
  | cutSurrogate
  /-- Arrays and objects nested too deep. -/
  | tooDeep
deriving DecidableEq, Repr

/-- The words for a fault. -/
def Fault.message : Fault → String
  | .endInValue => "EOF while parsing a value"
  | .endInList => "EOF while parsing a list"
  | .endInObject => "EOF while parsing an object"
  | .endInString => "EOF while parsing a string"
  | .noValue => "expected value"
  | .noWord => "expected ident"
  | .badNumber => "invalid number"
  | .numberTooLarge => "number out of range"
  | .noListSeparator => "expected `,` or `]`"
  | .noObjectSeparator => "expected `,` or `\x7d`"
  | .trailingComma => "trailing comma"
  | .keyNotString => "key must be a string"
  | .noColon => "expected `:`"
  | .trailingText => "trailing characters"
  | .rawControl => "control character (\\u0000-\\u001F) found while parsing a string"
  | .badEscape => "invalid escape"
  | .loneSurrogate => "lone leading surrogate in hex escape"
  | .cutSurrogate => "unexpected end of hex escape"
  | .tooDeep => "recursion limit exceeded"

/-- A fault and the place where the reader stood. -/
structure Error where
  fault : Fault
  line : Nat
  column : Nat
deriving DecidableEq, Repr

/-- The words for a fault and its place. -/
def Error.message (e : Error) : String :=
  e.fault.message ++ " at line " ++ toString e.line ++ " column " ++ toString e.column

/-- The line and the column of the place before byte `target`, when the reader is
at byte `offset` of a line that began at byte `lineStart`. -/
def locate (target : Nat) : List Char → (offset line lineStart : Nat) → Nat × Nat
  | [], _, line, lineStart => (line, target - lineStart)
  | c :: rest, offset, line, lineStart =>
    if target ≤ offset then (line, target - lineStart)
    else if c = '\n' then locate target rest (offset + 1) (line + 1) (offset + 1)
    else locate target rest (offset + c.utf8Size) line lineStart

/-- A fault before byte `target` of a text. -/
def Error.at (fault : Fault) (text : List Char) (target : Nat) : Error :=
  let place := locate target text 0 1 0
  ⟨fault, place.1, place.2⟩

end Json
end PathQuery
