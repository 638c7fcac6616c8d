/-
# Operations on values

What the steps of a pipeline do to values, without pipelines: members and items,
one level of arrays merged, comparisons, and the functions `length` and
`contains` with the types that they refuse.

Key definitions: `TypeFault`, `Value.member`, `Value.item`, `Value.flattenItems`,
`Value.compareBy`, `Value.length`, `Value.contains`, `occursIn`.
-/
import PathQuery.Expr
import PathQuery.Value

namespace PathQuery

/-- A value of a type that a function does not take. -/
inductive TypeFault
  /-- `length` of something without a length. -/
  | lengthOf (type : String)
  /-- `contains` in something that holds nothing. -/
  | containsIn (type : String)
  /-- `contains` in a string, of something that is no string. -/
  | containsNeedle (type : String)
deriving DecidableEq, Repr

/-- The words for it. -/
def TypeFault.message : TypeFault → String
  | .lengthOf type => "length() requires array, object or string, got " ++ type
  | .containsIn type => "contains() requires array or string, got " ++ type
  | .containsNeedle type => "contains() on a string requires a string argument, got " ++ type

/-- Whether a text can be read somewhere in another. -/
def occursIn (needle : List Char) : List Char → Bool
  | [] => needle.isEmpty
  | c :: text => needle.isPrefixOf (c :: text) || occursIn needle text

namespace Value

/-! ### Parts of a value -/

/-- The member of a name, or null. -/
def member (name : String) : Value → Value
  | .object fields => (Fields.lookup name fields).getD .null
  | _ => .null

/-- The place among `length` items that a number means: from the front, or from the
end if it is negative. -/
def place? (length : Nat) (n : Int64) : Option Nat :=
  let i := if n.toInt < 0 then length + n.toInt else n.toInt
  if 0 ≤ i ∧ i < length then some i.toNat else none

/-- The item at a place, or null. -/
def item (n : Int64) : Value → Value
  | .array items => ((place? items.length n).bind (items[·]?)).getD .null
  | _ => .null

/-- The items, with the items of an array in its place. -/
def flattenItems : List Value → List Value
  | [] => []
  | .array items :: rest => items ++ flattenItems rest
  | v :: rest => v :: flattenItems rest

/-! ### Comparisons -/

/-- The order of two numbers. -/
def compare? : Value → Value → Option Ordering
  | .number m, .number n => m.compare? n
  | _, _ => none

/-- Whether an order is what a comparison asks for. -/
def holds (c : Comparator) (o : Ordering) : Bool :=
  match c with
  | .lt => o == .lt
  | .le => o != .gt
  | .gt => o == .gt
  | .ge => o != .lt
  | .eq => o == .eq
  | .ne => o != .eq

/-- The result of a comparison: of any values for equality, of numbers for order, and
else null. -/
def compareBy (c : Comparator) (a b : Value) : Value :=
  match c with
  | .eq => .boolean (equal a b)
  | .ne => .boolean (!equal a b)
  | c =>
    match compare? a b with
    | some o => .boolean (holds c o)
    | none => .null

/-! ### Functions -/

/-- How many items, members or characters. -/
def length : Value → Except TypeFault Value
  | .array items => .ok (integer (Int64.ofNat items.length))
  | .object fields => .ok (integer (Int64.ofNat fields.length))
  | .string s => .ok (integer (Int64.ofNat s.length))
  | v => .error (.lengthOf v.typeName)

/-- Whether a value is equal to an item, or a string occurs in a string. -/
def contains : (subject needle : Value) → Except TypeFault Value
  | .array items, needle => .ok (.boolean (items.any (equal · needle)))
  | .string s, .string t => .ok (.boolean (occursIn t.toList s.toList))
  | .string _, needle => .error (.containsNeedle needle.typeName)
  | subject, _ => .error (.containsIn subject.typeName)

end Value

end PathQuery
