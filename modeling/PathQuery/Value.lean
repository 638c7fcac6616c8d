/-
# Values

A value is a document whose numbers are 64-bit integers and doubles, kept apart.
Values of JSON texts and values go over into each other: an integer beyond 64
bits becomes a double, and a double that is no number has no JSON text but null.

Two values are the same (`same`) if their numbers are of one kind and equal. They
are equal (`equal`) if their numbers stand for the same number, whatever the
kind; an integer and a double are compared as decimals with bounded places.

Key definitions: `Value`, `Value.isTruthy`, `Value.typeName`, `Value.ofJson`,
`Value.toJson`, `Number.compare?`, `Value.same`, `Value.equal`.
-/
import PathQuery.Decimal.Bounded
import PathQuery.Json.Reader

namespace PathQuery

/-- A number: an integer of 64 bits or a double. -/
inductive Number
  | integer (n : Int64)
  | float (x : Float)

/-- What pipelines work on. -/
abbrev Value := Document Number

namespace Number

/-- The kind of a number. -/
def kind : Number → String
  | .integer _ => "integer"
  | .float _ => "float"

/-- Whether two numbers are of one kind and equal. -/
def same : Number → Number → Bool
  | .integer m, .integer n => m == n
  | .float x, .float y => x == y
  | _, _ => false

/-- The order of two doubles, unless one is no number. -/
def compareFloats? (x y : Float) : Option Ordering :=
  if x < y then some .lt else if y < x then some .gt else if x == y then some .eq else none

/-- The double nearest to an integer. -/
def nearestFloat (n : Int64) : Float := .ofModel (.ofInt64 n)

/-- The order of an integer and a double: as decimals if the double is one, else as
doubles. -/
def compareMixed? (n : Int64) (x : Float) : Option Ordering :=
  if x.isFinite then
    match Bounded.ofDyadic? (.ofFloat x) with
    | some d => some (d.compareInt n.toInt)
    | none => compareFloats? (nearestFloat n) x
  else compareFloats? (nearestFloat n) x

/-- The order of two numbers, unless one is no number. -/
def compare? : Number → Number → Option Ordering
  | .integer m, .integer n => some (compare m.toInt n.toInt)
  | .float x, .float y => compareFloats? x y
  | .integer n, .float x => compareMixed? n x
  | .float x, .integer n => (compareMixed? n x).map Ordering.swap

end Number

namespace Value

/-- An integer. -/
def integer (n : Int64) : Value := .number (.integer n)

/-- A double. -/
def float (x : Float) : Value := .number (.float x)

/-- Null, false and everything empty do not count as true; all else does, 0 included. -/
def isTruthy : Value → Bool
  | .null => false
  | .boolean b => b
  | .number _ => true
  | .string s => !s.isEmpty
  | .array items => !items.isEmpty
  | .object fields => !fields.isEmpty

/-- Whether the value is null. -/
def isNull : Value → Bool
  | .null => true
  | _ => false

/-- What a message calls the value. -/
def typeName : Value → String
  | .null => "null"
  | .boolean _ => "boolean"
  | .number n => n.kind
  | .string _ => "string"
  | .array _ => "array"
  | .object _ => "object"

/-! ### Equality -/

/-- The same shape, and numbers of one kind that are equal. -/
def same (a b : Value) : Bool := Document.agree Number.same a b

/-- The same shape, and numbers that stand for one number. -/
def equal (a b : Value) : Bool := Document.agree (fun m n => m.compare? n == some .eq) a b

/-! ### Values and JSON texts -/

/-- The value of a number of a JSON text. -/
def ofJsonNumber : Json.Number → Value
  | .integer n =>
    if Int64.minValue.toInt ≤ n ∧ n ≤ Int64.maxValue.toInt then integer (Int64.ofInt n)
    else float (Float.ofInt n)
  | .float x => float x

/-- The value of what a JSON text says. -/
def ofJson (j : Json) : Value := j.mapNumbers ofJsonNumber

/-- What a JSON text says of a number. -/
def toJsonNumber : Number → Json
  | .integer n => .number (.integer n.toInt)
  | .float x => if x.isFinite then .number (.float x) else .null

/-- What a JSON text says of a value. -/
def toJson (v : Value) : Json := v.mapNumbers toJsonNumber

/-- The value of a JSON text. -/
def read (text : String) : Except Json.Error Value := (Json.read text.toList).map ofJson

end Value

end PathQuery
