/-
# How a decimal is written

A decimal is written with a point among its digits while its leading digit is
neither too far before nor too far after the point, and otherwise as a number
with one digit before the point and a power of ten behind a mark. Where the one
ends and the other begins, and how many digits after the point are the least, is
a `Layout`.

Key definitions: `Layout`, `Decimal.digits`, `Decimal.write`.
-/
import PathQuery.Decimal.Shortest

namespace PathQuery

/-- The choices of a way to write decimals. -/
structure Layout where
  /-- The least exponent of a leading digit that is written with a point only. -/
  lowest : Int
  /-- The greatest one. -/
  highest : Int
  /-- The least number of digits after the point when there is no power of ten. -/
  fraction : Nat
  /-- What stands before the power of ten. -/
  mark : Char
deriving DecidableEq, Repr

namespace Decimal

/-- The digits from the first to the last that is not 0. -/
def digits (x : Decimal) : List Char :=
  match ((Nat.toDigits 10 x.coefficient).reverse.dropWhile (· == '0')).reverse with
  | [] => ['0']
  | ds => ds

/-- The exponent of the leading digit. -/
def leading (x : Decimal) : Int := x.exponent + digitCount x.coefficient - 1

/-- At least `n` digits, with zeros behind. -/
def padRight (n : Nat) (ds : List Char) : List Char := ds ++ List.replicate (n - ds.length) '0'

/-- The digits around a point. -/
def positional (layout : Layout) (x : Decimal) : List Char :=
  let ds := x.digits
  if 0 ≤ x.leading then
    let whole := (x.leading + 1).toNat
    let rest := padRight layout.fraction (ds.drop whole)
    padRight whole (ds.take whole) ++ if rest.isEmpty then [] else '.' :: rest
  else '0' :: '.' :: padRight layout.fraction (List.replicate (-x.leading - 1).toNat '0' ++ ds)

/-- One digit before the point, and a power of ten. -/
def scientific (layout : Layout) (x : Decimal) : List Char :=
  let power := layout.mark :: (toString x.leading).toList
  match x.digits with
  | d :: e :: ds => d :: '.' :: e :: ds ++ power
  | ds => ds ++ power

/-- The decimal as a layout has it. -/
def write (layout : Layout) (x : Decimal) : String :=
  String.ofList <|
    if layout.lowest ≤ x.leading ∧ x.leading ≤ layout.highest then x.positional layout
    else x.scientific layout

end Decimal
end PathQuery
