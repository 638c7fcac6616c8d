/-
# Doubles as integers and powers of two

A finite double is a sign, a mantissa below `2 ^ 53` and a power of two. The
bits say which, and all exact work on doubles starts from there.

Key definitions: `Dyadic`, `Dyadic.ofFloat`.
-/

namespace PathQuery

/-- The number `± mantissa * 2 ^ exponent`. -/
structure Dyadic where
  negative : Bool
  mantissa : Nat
  exponent : Int
deriving DecidableEq, Repr

namespace Dyadic

/-- The bit that a mantissa of full length begins with, the 53rd. -/
def leadingBit : Nat := 4503599627370496

/-- The number whose double has these 64 bits: a sign bit, eleven bits of exponent and
52 of mantissa. Exponent 0 marks the numbers without a leading bit. -/
def ofBits (bits : Nat) : Dyadic :=
  let fraction : Nat := bits % leadingBit
  let biased : Nat := bits / leadingBit % 2048
  let negative := bits / leadingBit / 2048 % 2 == 1
  if biased = 0 then ⟨negative, fraction, -1074⟩
  else ⟨negative, leadingBit + fraction, (biased : Int) - 1075⟩

/-- The number of a finite double. -/
def ofFloat (x : Float) : Dyadic := ofBits x.toBits.toNat

/-- Whether the next smaller double is nearer than the next larger one: so below a
power of two, except at the bottom of the range. -/
def isLowestOfBinade (d : Dyadic) : Bool := d.mantissa == leadingBit && d.exponent > -1074

end Dyadic
end PathQuery
