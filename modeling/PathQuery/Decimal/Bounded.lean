/-
# A double in 28 places

Integers and doubles are compared as decimals with a coefficient below `2 ^ 96`
and at most 28 places after the point. A double becomes such a decimal in five
steps, and not exactly: its power of two is turned into a power of ten by
fives and halves while the coefficient has room for them, places past the 28th
are rounded away, and so is every place while the coefficient still has 53 bits.
A double too large for the coefficient has no such decimal.

Key definitions: `Bounded`, `Bounded.ofDyadic?`, `Bounded.compareInt`.
-/
import PathQuery.Decimal.Dyadic

namespace PathQuery

/-- The number `± coefficient / 10 ^ places`. -/
structure Bounded where
  negative : Bool
  coefficient : Nat
  places : Nat
deriving DecidableEq, Repr

namespace Bounded

/-- The first number for which a coefficient has no room, `2 ^ 96`. -/
def limit96 : Nat := 79228162514264337593543950336

/-- Multiplies by `5 ^ count`, with `m * 10 ^ e` for the number so far. A five
that has no room, or meets an even coefficient, is a ten and a half. -/
def times5 : (count m : Nat) → (e : Int) → Nat × Int
  | 0, m, e => (m, e)
  | count + 1, m, e =>
    if m % 2 = 1 ∧ 5 * m < limit96 then times5 count (5 * m) e else times5 count (m / 2) (e + 1)

/-- Divides by `5 ^ count`. A fifth is a double and a tenth while there is room for
the double. -/
def over5 : (count m : Nat) → (e : Int) → Option (Nat × Int)
  | 0, m, e => some (m, e)
  | count + 1, m, e =>
    if 2 * m < limit96 then over5 count (2 * m) (e - 1)
    else if 2 * e > count + 1 then none
    else over5 count (m / 5) e

/-- Multiplies by `10 ^ count`, if there is room. -/
def times10 : (count m : Nat) → Option Nat
  | 0, m => some m
  | count + 1, m => if 10 * m < limit96 then times10 count (10 * m) else none

/-- The coefficient without its last `count` places, each rounded in turn. A
coefficient of one digit is dropped whole, whatever the digit. -/
def dropPlaces : (count m : Nat) → Nat
  | 0, m => m
  | count + 1, m =>
    if m / 10 = 0 then 0
    else dropPlaces count (m / 10 + if 5 ≤ m % 10 then 1 else 0)

/-- Rounds places away while the coefficient has 53 bits. -/
def fitDouble : (places m : Nat) → Nat × Nat
  | 0, m => (m, 0)
  | places + 1, m =>
    if m < Dyadic.leadingBit then (m, places + 1)
    else fitDouble places (m / 10 + if 5 ≤ m % 10 then 1 else 0)

/-- The decimal of a double, if it is not too large. -/
def ofDyadic? (d : Dyadic) : Option Bounded := do
  let (m, e) := times5 (-d.exponent).toNat d.mantissa d.exponent
  let (m, e) ← over5 d.exponent.toNat m e
  let m ← times10 e.toNat m
  let places := (-e).toNat
  let m := dropPlaces (places - 28) m
  let (m, places) := fitDouble (min places 28) m
  some ⟨d.negative, m, places⟩

/-- Compares an integer with a decimal. -/
def compareInt (i : Int) (x : Bounded) : Ordering :=
  compare (i * (Nat.pow 10 x.places : Nat)) (if x.negative then -x.coefficient else x.coefficient)

end Bounded
end PathQuery
