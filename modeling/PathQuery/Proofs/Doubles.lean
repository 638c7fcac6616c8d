/-
# Doubles beyond all integers

A double with a large power of two is further from 0 than every integer of 64 bits, and so than the
double nearest to it. So its sign alone says how they compare (`Number.compareFloats?_nearestFloat`).
The nearest double is a mantissa and a power of two below `2 ^ 43`, since rounding makes the power no
larger than the bits of the integer ask for, and packing keeps it.

Key definitions: `IsBelow`.
Key theorems: `isBelow_ofInt`, `isBelow_unpack_pack`, `Number.compareFloats?_nearestFloat`.
-/
import Mathlib
import PathQuery.Value

namespace PathQuery

open Float.Model Float.Model.UnpackedFloat

/-- A zero, or a number with a power of two below `2 ^ 43`. -/
def IsBelow : UnpackedFloat → Prop
  | .zero _ => True
  | .finite _ _ e _ => e < 43
  | .infinity _ | .notANumber => False

/-! ### Rounding -/

theorem shiftRight_mantissa_le (em : ExtendedMantissa) : ∀ n : Nat, (em >>> n).mantissa ≤ em.mantissa := by
  intro n
  show (n.repeat ExtendedMantissa.shiftRightOne em).mantissa ≤ em.mantissa
  induction n with
  | zero => exact Nat.le_refl _
  | succ n ih => exact Nat.le_trans (Nat.div_le_self _ 2) ih

theorem roundedMantissa_le (em : ExtendedMantissa) : em.roundedMantissa ≤ em.mantissa + 1 := by
  unfold ExtendedMantissa.roundedMantissa
  rcases em.accuracy with _ | (_ | _ | _)
  all_goals
    simp only [Accuracy.roundToNearestEven]
    omega

/-- A shift to the target of doubles drops bits, and makes a power of two no larger than it was or the
bits of the mantissa ask for. -/
theorem shiftToTargetExponent_le {m k : Nat} (hm : m < 2 ^ (k + 1)) (e : Int) :
    (shiftToTargetExponent .binary64 m e .exact).1.mantissa ≤ m ∧
      (shiftToTargetExponent .binary64 m e .exact).2 ≤ max e (max (k + e - 52) (-1074)) := by
  refine ⟨shiftRight_mantissa_le _ _, ?_⟩
  have hlog : m.log2 ≤ k := by
    rcases Nat.eq_zero_or_pos m with rfl | hpos
    · exact Nat.zero_le k
    · exact Nat.le_of_lt_succ ((Nat.log2_lt (by omega)).mpr hm)
  have htarget : Format.binary64.targetExponent (totalExponent m e) = max (m.log2 + 1 + e - 53) (-1074) := rfl
  show e + ((Format.binary64.targetExponent (totalExponent m e) - e).toNat : Int) ≤ _
  omega

/-- A number below `2 ^ 64` with no large power of two stays below `2 ^ 43` in it. -/
theorem isBelow_roundWithAccuracy (sign : Sign) {m : Nat} (hm : m < 2 ^ 64) {e : Int} (he : e ≤ 0) :
    IsBelow (roundWithAccuracy .binary64 sign m e .exact) := by
  obtain ⟨hfirst, hfirst'⟩ := shiftToTargetExponent_le (k := 63) hm e
  unfold roundWithAccuracy
  generalize shiftToTargetExponent .binary64 m e .exact = shifted at hfirst hfirst' ⊢
  obtain ⟨em, e₁⟩ := shifted
  have hrounded : em.roundedMantissa < 2 ^ 65 := by
    have hle := roundedMantissa_le em
    simp only at hfirst
    omega
  obtain ⟨-, hsecond⟩ := shiftToTargetExponent_le (k := 64) hrounded e₁
  simp only at hfirst' ⊢
  generalize shiftToTargetExponent .binary64 em.roundedMantissa e₁ .exact = shifted at hsecond ⊢
  split
  · trivial
  · show shifted.2 < 43
    omega

theorem isBelow_round (sign : Sign) {m : Nat} (hm : m ≤ 2 ^ 63) :
    IsBelow (UnpackedFloat.round .binary64 sign m 0) := by
  have htarget : Format.binary64.targetExponent (totalExponent m 0) =
      max ((m.log2 : Int) + 1 + 0 - 53) (-1074) := rfl
  have hlog : m < 2 ^ (m.log2 + 1) := Nat.lt_log2_self
  unfold UnpackedFloat.round decreaseExponent
  rw [htarget]
  refine isBelow_roundWithAccuracy sign ?_ (by omega)
  rw [Nat.shiftLeft_eq]
  by_cases hsmall : m.log2 ≤ 52
  · calc m * 2 ^ (0 - max ((m.log2 : Int) + 1 + 0 - 53) (-1074)).toNat
        < 2 ^ (m.log2 + 1) * 2 ^ (0 - max ((m.log2 : Int) + 1 + 0 - 53) (-1074)).toNat :=
          Nat.mul_lt_mul_of_pos_right hlog (Nat.two_pow_pos _)
      _ = 2 ^ 53 := by
          rw [← Nat.pow_add]
          congr 1
          omega
      _ ≤ 2 ^ 64 := by decide
  · rw [show (0 - max ((m.log2 : Int) + 1 + 0 - 53) (-1074)).toNat = 0 by omega]
    omega

/-- The double nearest to an integer has a power of two below `2 ^ 43`. -/
theorem isBelow_ofInt {n : Int} (hn : n.natAbs ≤ 2 ^ 63) : IsBelow (UnpackedFloat.ofInt .binary64 n) := by
  unfold UnpackedFloat.ofInt UnpackedFloat.normalize
  split
  · exact isBelow_round .negative (by omega)
  · trivial
  · exact isBelow_round .positive (by omega)

/-! ### Packing -/

theorem isBelow_unpack_packComponents (sign : Sign) {e : BitVec 11} (m : BitVec 52) (he : e.toNat < 1118) :
    IsBelow (UnpackedFloat.unpack .binary64 (packComponents .binary64 sign e m)) := by
  have hfinite : e ≠ -1#11 := by
    rintro rfl
    exact absurd he (by decide)
  unfold UnpackedFloat.unpack
  simp only [unpackExponent_packComponents, unpackMantissa_packComponents, if_neg hfinite]
  split_ifs with hzero
  · trivial
  · show (e.toNat : Int) - (1023 + 52) + 1 < 43
    rw [hzero]
    decide
  · show (e.toNat : Int) - (1023 + 52) < 43
    omega

theorem isBelow_unpack_pack {u : UnpackedFloat} (h : IsBelow u) :
    IsBelow (UnpackedFloat.unpack .binary64 (UnpackedFloat.pack .binary64 u)) := by
  cases u with
  | infinity | notANumber => exact h.elim
  | zero sign => exact isBelow_unpack_packComponents sign 0 (by decide)
  | finite sign m e hm =>
    have he : e < 43 := h
    have hbias : Format.binary64.exponentBias = 1023 := rfl
    unfold UnpackedFloat.pack
    simp only [hbias]
    split_ifs with hoverflow
    · exact absurd hoverflow (by omega)
    · refine isBelow_unpack_packComponents sign _ ?_
      rw [BitVec.toNat_ofNat]
      omega
    · exact isBelow_unpack_packComponents sign _ (by decide)

/-! ### The bits of a double -/

theorem toNat_unpackExponent (b : BitVec 64) :
    (@unpackExponent .binary64 b).toNat = b.toNat / Dyadic.leadingBit % 2048 := by
  simp [unpackExponent, BitVec.extractLsb, Nat.shiftRight_eq_div_pow, Dyadic.leadingBit]

theorem ofBitVec_unpackSign (b : BitVec 64) : Sign.ofBitVec (@unpackSign .binary64 b) =
    if b.toNat / Dyadic.leadingBit / 2048 % 2 == 1 then .negative else .positive := by
  have hbit : (@unpackSign .binary64 b).toNat = b.toNat / Dyadic.leadingBit / 2048 % 2 := by
    simp [unpackSign, BitVec.extractLsb, Nat.shiftRight_eq_div_pow, Dyadic.leadingBit, Nat.div_div_eq_div_mul]
  rw [← hbit]
  generalize @unpackSign .binary64 b = sign
  rcases BitVec.eq_zero_or_eq_one sign with rfl | rfl <;> rfl

namespace Dyadic

variable (bits : Nat)

theorem negative_ofBits : (ofBits bits).negative = (bits / leadingBit / 2048 % 2 == 1) := by
  simp only [ofBits]
  split <;> rfl

theorem mantissa_ofBits_lt : (ofBits bits).mantissa < 2 ^ 53 := by
  have hfraction : bits % leadingBit < 2 ^ 52 := Nat.mod_lt _ (by decide)
  simp only [ofBits]
  split
  · exact Nat.lt_trans hfraction (by decide)
  · simp only [leadingBit] at hfraction ⊢
    omega

theorem le_exponent_ofBits : -1074 ≤ (ofBits bits).exponent := by
  simp only [ofBits]
  split
  · exact Int.le_refl _
  · simp only
    omega

variable {bits}

theorem biased_of_le_exponent (h : 43 ≤ (ofBits bits).exponent) : 1118 ≤ bits / leadingBit % 2048 := by
  simp only [ofBits] at h
  split at h <;> simp only at h <;> omega

end Dyadic

/-- A finite number with a large exponent in its bits is unpacked with its sign and a large power of two. -/
theorem unpack_of_le_exponent {b : BitVec 64} (hfinite : (UnpackedFloat.unpack .binary64 b).isFinite = true)
    (hlarge : 1118 ≤ (@unpackExponent .binary64 b).toNat) :
    ∃ m e hm, UnpackedFloat.unpack .binary64 b = .finite (Sign.ofBitVec (@unpackSign .binary64 b)) m e hm ∧
      43 ≤ e := by
  have hzero : @unpackExponent .binary64 b ≠ 0#11 := by
    intro h
    rw [h] at hlarge
    exact absurd hlarge (by decide)
  unfold UnpackedFloat.unpack at hfinite ⊢
  simp only [if_neg hzero] at hfinite ⊢
  split_ifs at hfinite with hones
  · exact absurd hfinite Bool.false_ne_true
  · exact absurd hfinite Bool.false_ne_true
  · rw [if_neg hones]
    have hleading (w : Nat) (v : BitVec w) : 0 < (1#1 ++ v).toNat := by simp
    refine ⟨_, _, hleading _ _, rfl, ?_⟩
    show 43 ≤ ((@unpackExponent .binary64 b).toNat : Int) - (1023 + 52)
    omega

theorem unpack_eq_finite {x : Float} (hx : x.isFinite = true) (he : 43 ≤ (Dyadic.ofFloat x).exponent) :
    ∃ m e hm, x.toModel.unpack = .finite (if (Dyadic.ofFloat x).negative then .negative else .positive) m e hm ∧
      43 ≤ e := by
  obtain ⟨m, e, hm, hunpack, hlarge⟩ := unpack_of_le_exponent (b := x.toModel.toBits.toBitVec) hx
    (toNat_unpackExponent _ ▸ Dyadic.biased_of_le_exponent he)
  rw [ofBitVec_unpackSign] at hunpack
  exact ⟨m, e, hm, by rw [Dyadic.ofFloat, Dyadic.negative_ofBits]; exact hunpack, hlarge⟩

/-- A power of two from `2 ^ 43` on outweighs any mantissa below it. -/
theorem IsBelow.compare {u : UnpackedFloat} (h : IsBelow u) {m : Nat} {e : Int} (hm : 0 < m) (he : 43 ≤ e) :
    u.compare (.finite .positive m e hm) = some .lt ∧ u.compare (.finite .negative m e hm) = some .gt ∧
      (UnpackedFloat.finite .negative m e hm).compare u = some .lt := by
  cases u with
  | infinity | notANumber => exact h.elim
  | zero sign => exact ⟨rfl, rfl, rfl⟩
  | finite sign m' e' hm' =>
    have hlt : Ord.compare e' e = .lt := Int.compare_eq_lt.mpr (Int.lt_of_lt_of_le h he)
    have hgt : Ord.compare e e' = .gt := Int.compare_eq_gt.mpr (Int.lt_of_lt_of_le h he)
    cases sign <;> simp [UnpackedFloat.compare, hlt, hgt]

namespace Number

variable {x y : Float}

theorem lt_iff_compare : x < y ↔ x.toModel.unpack.compare y.toModel.unpack = some .lt := by
  show decide ((x.toModel.unpack.compare y.toModel.unpack == some .lt) = true) = true ↔ _
  rw [decide_eq_true_eq, beq_iff_eq]

/-- **A double far from 0 is on its side of the double nearest to any integer.** -/
theorem compareFloats?_nearestFloat (n : Int64) (hx : x.isFinite = true) (he : 43 ≤ (Dyadic.ofFloat x).exponent) :
    compareFloats? (nearestFloat n) x = some (if (Dyadic.ofFloat x).negative then .gt else .lt) := by
  have hbelow : IsBelow (nearestFloat n).toModel.unpack := isBelow_unpack_pack (isBelow_ofInt (by
    have hlow := n.le_toInt
    have hhigh := n.toInt_lt
    omega))
  obtain ⟨m, e, hm, hunpack, hlarge⟩ := unpack_eq_finite hx he
  obtain ⟨hpositive, hnegative, hnegative'⟩ := hbelow.compare hm hlarge
  unfold compareFloats?
  simp only [lt_iff_compare, hunpack]
  cases (Dyadic.ofFloat x).negative with
  | false =>
    simp only [Bool.false_eq_true, if_false, if_pos hpositive]
  | true =>
    simp only [if_true, hnegative, if_pos hnegative']
    rfl

end Number

end PathQuery
