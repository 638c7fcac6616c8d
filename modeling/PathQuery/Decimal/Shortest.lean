/-
# The fewest digits that read back

Every number nearer to a double than to its neighbours reads back as that
double, and so do the two numbers half way if the mantissa is even. Among all
decimals in that interval `shortest` takes one with the fewest digits, and of
those the nearest to the double; of two equally near, the larger.

The search runs over the grids `10 ^ e`, from the leading digit down. On a grid
only the two neighbours of the double can be nearest, and all is decided in
natural numbers.

Key definitions: `Dyadic.readsBack`, `Dyadic.onGrid`, `Dyadic.shortest`.
Key theorems: `Dyadic.onGrid_readsBack`.
-/
import PathQuery.Decimal.Dyadic

namespace PathQuery

/-- The number `coefficient * 10 ^ exponent`. -/
structure Decimal where
  coefficient : Nat
  exponent : Int
deriving DecidableEq, Repr

/-- How many digits a positive number has in base 10. -/
def digitCount (n : Nat) : Nat := (Nat.toDigits 10 n).length

namespace Dyadic

/-! ### A double on a grid

`mantissa * 2 ^ exponent / 10 ^ e` is `mantissa * up d e / down d e`. -/

/-- What a mantissa is multiplied by on the grid `10 ^ e`. -/
def up (d : Dyadic) (e : Int) : Nat := Nat.pow 2 d.exponent.toNat * Nat.pow 10 (-e).toNat

/-- What a mantissa is divided by on the grid `10 ^ e`. -/
def down (d : Dyadic) (e : Int) : Nat := Nat.pow 2 (-d.exponent).toNat * Nat.pow 10 e.toNat

/-- Whether `c * 10 ^ e` reads back as the double: it lies between the halves of
the gaps on both sides, ends included iff the mantissa is even. -/
def readsBack (d : Dyadic) (c : Nat) (e : Int) : Bool :=
  let low := (4 * d.mantissa - if d.isLowestOfBinade then 1 else 2) * d.up e
  let high := (4 * d.mantissa + 2) * d.up e
  let point := 4 * c * d.down e
  if d.mantissa % 2 = 0 then decide (low ≤ point ∧ point ≤ high)
  else decide (low < point ∧ point < high)

/-- The nearest multiple of `10 ^ e` that reads back as the double, if one does. -/
def onGrid (d : Dyadic) (e : Int) : Option Nat :=
  let below := d.mantissa * d.up e / d.down e
  match d.readsBack below e, d.readsBack (below + 1) e with
  | true, true =>
    if 2 * d.mantissa * d.up e < (2 * below + 1) * d.down e then some below else some (below + 1)
  | true, false => some below
  | false, true => some (below + 1)
  | false, false => none

/-- The exponent of the leading digit of a number that is not 0. -/
def leadingExponent (d : Dyadic) : Int :=
  let num := d.mantissa * d.up 0
  let den := d.down 0
  if den ≤ num then digitCount (num / den) - 1
  else -digitCount ((den + num - 1) / num - 1)

/-- The first grid from `10 ^ e` down with a point that reads back. -/
def shortestFrom (d : Dyadic) : (grids : Nat) → (e : Int) → Decimal
  | 0, e => ⟨d.mantissa * d.up e / d.down e, e⟩
  | grids + 1, e =>
    match d.onGrid e with
    | some c => ⟨c, e⟩
    | none => d.shortestFrom grids (e - 1)

/-- The shortest decimal that reads back as the size of the double. Seventeen
digits are always enough. -/
def shortest (d : Dyadic) : Decimal :=
  if d.mantissa = 0 then ⟨0, 0⟩ else d.shortestFrom 17 d.leadingExponent

/-- What is found on a grid reads back. -/
theorem onGrid_readsBack {d : Dyadic} {e : Int} {c : Nat} (h : d.onGrid e = some c) :
    d.readsBack c e = true := by
  unfold onGrid at h
  simp only at h
  split at h
  · rename_i h1 h2
    split at h <;> cases h
    · exact h1
    · exact h2
  · rename_i h1 _
    cases h
    exact h1
  · rename_i _ h2
    cases h
    exact h2
  · cases h

end Dyadic
end PathQuery
