/-
# Documents of a JSON text

A text holds one value, with blanks around it. Arrays and objects may nest up to
127 deep. An object keeps its names in order; of a name that comes twice, the
first place and the last value count.

Key definitions: `Json`, `Json.same`, `Json.value`, `Json.read`.
-/
import PathQuery.Document
import PathQuery.Json.Text
import PathQuery.Json.Numeral

namespace PathQuery

/-- What a JSON text says. -/
abbrev Json := Document Json.Number

namespace Json

/-- Whether two texts say the same, up to the order of names. -/
def same (a b : Json) : Bool := Document.agree Number.same a b

/-- The bracket that ends an array, and what may stand before it. -/
def listBrackets : Brackets := ⟨']', .endInList, .noListSeparator, fun _ => true, .noValue⟩

/-- The bracket that ends an object, and what may stand before it. -/
def objectBrackets : Brackets :=
  ⟨'\x7d', .endInObject, .noObjectSeparator, fun c => c == '"', .keyNotString⟩

/-- A name, a colon and a value, from the quote of the name. -/
def member (room : Nat) (value : Reader Json) : Reader (String × Json) := fun c => do
  let (name, c) ← Text.read room c.advance
  let c := c.skipBlanks
  match c.rest with
  | [] => refuse .endInObject c
  | x :: _ =>
    if x = ':' then do
      let (v, c) ← value c.advance
      .ok ((name, v), c)
    else refuse .noColon c

/-- A value in which arrays and objects nest less than `depth` deep. No string or
sequence in it needs more than `room` steps, which is so if `room` is more than the
length of the text. -/
def value (room : Nat) : (depth : Nat) → Reader Json
  | 0, c => refuse .tooDeep c
  | depth + 1, c =>
    let c := c.skipBlanks
    match c.rest with
    | [] => refuse .endInValue c
    | x :: _ =>
      if x = 'n' then (word ['u', 'l', 'l'] c.advance).map fun r => (.null, r.2)
      else if x = 't' then (word ['r', 'u', 'e'] c.advance).map fun r => (.boolean true, r.2)
      else if x = 'f' then (word ['a', 'l', 's', 'e'] c.advance).map fun r => (.boolean false, r.2)
      else if x = '"' then (Text.read room c.advance).map fun r => (.string r.1, r.2)
      else if x = '-' ∨ x.isDigit then (Numeral.read c).map fun r => (.number r.1, r.2)
      else if x = '[' then
        if depth = 0 then refuse .tooDeep c
        else (sequenceOf listBrackets room (value room depth) c.advance).map fun r => (.array r.1, r.2)
      else if x = '\x7b' then
        if depth = 0 then refuse .tooDeep c
        else
          (sequenceOf objectBrackets room (member room (value room depth)) c.advance).map fun r =>
            (.object (Fields.ofList r.1), r.2)
      else refuse .noValue c

/-- A value and nothing behind it but blanks. -/
def document (text : List Char) : Except Refusal Json := do
  let (v, c) ← value (text.length + 1) 128 (Cursor.start text)
  let c := c.skipBlanks
  if c.rest.isEmpty then .ok v else refuse .trailingText c

/-- What a text says. -/
def read (text : List Char) : Except Error Json :=
  match document text with
  | .ok v => .ok v
  | .error r => .error (.at r.fault text r.offset)

end Json

end PathQuery
