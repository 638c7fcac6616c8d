/-
# Numbers of a JSON text

A numeral is a sign, the digits before the point, those after it and an
exponent. Without point and exponent it is an integer if 64 bits hold it;
otherwise it is a double.

The double is found in double arithmetic. The digits make an integer as long as
64 bits hold it; later digits before the point only count as places, and later
digits after it not at all. That integer, as a double, is then multiplied or
divided by a power of ten. So the result may differ from the nearest double in
its last bit, and a numeral beyond the largest double is refused.

Key definitions: `Json.Number`, `Numeral`, `Numeral.read`, `Numeral.number?`,
`Numeral.integer?`, `Numeral.float?`.
-/
import PathQuery.Json.Cursor
import PathQuery.Text.CharClass

namespace PathQuery
namespace Json

/-- A number of a JSON text. Readers make integers from `-2 ^ 63` to `2 ^ 64 - 1`. -/
inductive Number
  | integer (n : Int)
  | float (x : Float)

/-- Whether two numbers are of one kind and equal. -/
def Number.same : Number → Number → Bool
  | .integer m, .integer n => m == n
  | .float x, .float y => x == y
  | _, _ => false

/-- The sign of an exponent and its digits. -/
structure Power where
  negative : Bool
  digits : List Char
deriving DecidableEq, Repr

/-- The parts of a written number. -/
structure Numeral where
  negative : Bool
  whole : List Char
  fraction : Option (List Char)
  power : Option Power
deriving DecidableEq, Repr

namespace Numeral

/-! ### Reading the parts -/

/-- The digits that come next. -/
def digits (c : Cursor) : List Char × Cursor :=
  let ds := c.rest.takeWhile Char.isDigit
  (ds, ⟨c.rest.dropWhile Char.isDigit, c.offset + ds.length⟩)

/-- The digits that come next, of which there must be one. -/
def someDigits : Reader (List Char) := fun c =>
  match digits c with
  | ([], c) => refuse (if c.rest.isEmpty then .endInValue else .badNumber) c
  | (ds, c) => .ok (ds, c)

/-- The digits before the point. Only a lone 0 begins with 0. -/
def readWhole : Reader (List Char) := fun c => do
  let (ds, after) ← someDigits c
  match ds with
  | '0' :: _ :: _ => refuse .badNumber c.advance
  | _ => .ok (ds, after)

/-- The point and the digits after it, if there is a point. -/
def readFraction : Reader (Option (List Char)) := fun c =>
  match c.rest with
  | '.' :: _ => do
    let (ds, c) ← someDigits c.advance
    .ok (some ds, c)
  | _ => .ok (none, c)

/-- The exponent, if there is one. -/
def readPower : Reader (Option Power) := fun c =>
  if c.rest.head? = some 'e' ∨ c.rest.head? = some 'E' then do
    let c := c.advance
    let negative := c.rest.head? == some '-'
    let c := if negative ∨ c.rest.head? = some '+' then c.advance else c
    let (ds, c) ← someDigits c
    .ok (some ⟨negative, ds⟩, c)
  else .ok (none, c)

/-- The parts of a numeral that begins with a digit or a minus sign. -/
def readParts : Reader Numeral := fun c => do
  let negative := c.rest.head? == some '-'
  let (whole, c) ← readWhole (if negative then c.advance else c)
  let (fraction, c) ← readFraction c
  let (power, c) ← readPower c
  .ok (⟨negative, whole, fraction, power⟩, c)

/-! ### The number of a numeral -/

/-- Appends digits to a number while it stays below `limit`, and gives the digits
that were too many. -/
def absorb (limit n : Nat) : List Char → Nat × List Char
  | [] => (n, [])
  | d :: ds =>
    let next := 10 * n + CharClass.digitValue d
    if next < limit then absorb limit next ds else (n, d :: ds)

/-- The first natural number that takes more than 64 bits. -/
def limit64 : Nat := 18446744073709551616

/-- The first natural number that takes more than 63 bits. -/
def limit63 : Nat := 9223372036854775808

/-- The first natural number that takes more than 31 bits. -/
def limit31 : Nat := 2147483648

/-- The double nearest to a power of ten. -/
def tenTo (n : Nat) : Float := Float.ofScientific 1 false n

/-- Divides by `10 ^ n`, by at most `10 ^ 308` at a time, at most `rounds` times. -/
def divideBy : (rounds : Nat) → (x : Float) → (n : Nat) → Float
  | 0, x, n => x / tenTo n
  | rounds + 1, x, n =>
    if n ≤ 308 then x / tenTo n
    else if x == 0 then x
    else divideBy rounds (x / tenTo 308) (n - 308)

/-- The double of `n * 10 ^ e`, found as the double of `n` times or divided by a
double, if it is finite. -/
def scale? (n : Nat) (e : Int) : Option Float :=
  let x := Float.ofNat n
  if e < 0 then some (divideBy (-e).toNat x (-e).toNat)
  else if e ≤ 308 then
    let y := x * tenTo e.toNat
    if y.isInf then none else some y
  else if x == 0 then some x
  else none

/-- The digits as an integer, as far as 64 bits hold it, and the power of ten that
makes up for digits left out before the point and digits taken from behind it. -/
def significand (a : Numeral) : Nat × Int :=
  let (n, extra) := absorb limit64 0 a.whole
  match a.fraction with
  | none => (n, extra.length)
  | some ds =>
    let (n, dropped) := absorb limit64 n ds
    (n, (extra.length : Int) - (ds.length - dropped.length))

/-- The integer of a numeral without point and exponent, if 64 bits hold it. There is
no integer `-0`. -/
def integer? (a : Numeral) : Option Int :=
  match a.fraction, a.power with
  | none, none =>
    let (n, extra) := absorb limit64 0 a.whole
    if !extra.isEmpty then none
    else if !a.negative then some n
    else if 0 < n ∧ n ≤ limit63 then some (-n)
    else none
  | _, _ => none

/-- The size of a numeral as a double. One that is too large gives instead how many
digits of its exponent need not be read to know. -/
def float? (a : Numeral) : Except Nat Float :=
  let (n, places) := a.significand
  let scaled (e : Int) : Except Nat Float :=
    match scale? n e with
    | some x => .ok x
    | none => .error 0
  match a.power with
  | none => scaled places
  | some power =>
    let (e, extra) := absorb limit31 0 power.digits
    if extra.isEmpty then scaled (if power.negative then places - e else places + e)
    else if n = 0 ∨ power.negative then .ok 0
    else .error (extra.length - 1)

/-- The number of a numeral, or how many digits a refusal leaves unread. -/
def number? (a : Numeral) : Except Nat Number :=
  match a.integer? with
  | some n => .ok (.integer n)
  | none => a.float?.map fun x => .float (if a.negative then -x else x)

/-- A number, from its first digit or its minus sign. -/
def read : Reader Number := fun c => do
  let (a, c) ← readParts c
  match a.number? with
  | .ok n => .ok (n, c)
  | .error unread => .error ⟨.numberTooLarge, c.offset - unread⟩

end Numeral
end Json
end PathQuery
