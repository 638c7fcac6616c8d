/-
# The text of a value

A value is written as a compact JSON text, names in their order. Integers are
written in full. Doubles keep a digit after the point, have no power of ten from
`1e-4` up to `1e16`, and have no text but null if they are not finite.

Key definitions: `Value.floatLayout`, `Number.text`, `Value.text`.
-/
import PathQuery.Decimal.Layout
import PathQuery.Text.Quoted
import PathQuery.Value

namespace PathQuery

/-- Doubles have a digit after the point, and a power of ten below `1e-4` and from
`1e16` on. -/
def Value.floatLayout : Layout := ⟨-4, 15, 1, 'e'⟩

namespace Number

/-- The text of a finite double. -/
def finiteText (x : Float) : String :=
  let d := Dyadic.ofFloat x
  (if d.negative then "-" else "") ++ d.shortest.write Value.floatLayout

/-- The text of a number. -/
def text : Number → String
  | .integer n => toString n.toInt
  | .float x => if x.isFinite then finiteText x else "null"

end Number

namespace Value

mutual

/-- The JSON text of a value. -/
def text : Value → String
  | .null => "null"
  | .boolean b => if b then "true" else "false"
  | .number n => n.text
  | .string s => Quoted.quote s
  | .array items => "[" ++ itemsText items ++ "]"
  | .object fields => "\x7b" ++ fieldsText fields ++ "\x7d"

/-- The texts of the items, with commas between them. -/
def itemsText : List Value → String
  | [] => ""
  | [v] => text v
  | v :: w :: rest => text v ++ "," ++ itemsText (w :: rest)

/-- The names and texts of the values, with commas between them. -/
def fieldsText : List (String × Value) → String
  | [] => ""
  | [(k, v)] => Quoted.quote k ++ ":" ++ text v
  | (k, v) :: w :: rest => Quoted.quote k ++ ":" ++ text v ++ "," ++ fieldsText (w :: rest)

end

end Value

end PathQuery
