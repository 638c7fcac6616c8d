/-
# Integers against doubles

An integer and a finite double are compared as the numbers that they denote, with one exception: they
may count as equal though they are not (`Number.compareMixed?_order`). Then the double is neither a
whole number nor a short decimal, and the two are closer than `10 ^ -28` or than a part in `2 ^ 49` of
the integer. A double is never on the wrong side of an integer.

So whole doubles are compared exactly, and so are decimals with a coefficient below `2 ^ 52` and at most
28 places.

Key definitions: `Dyadic.toRat`, `Bounded.toRat`, `Number.denoted`.
Key theorems: `Bounded.compareInt_eq`, `Bounded.StandsFor.order`, `Number.compareMixed?_order`.
-/
import Mathlib.Order.Compare
import PathQuery.Proofs.Doubles
import PathQuery.Proofs.Places

namespace PathQuery

/-- Comparisons agree that agree on what is less. -/
theorem compare_congr {α β : Type} [LinearOrder α] [LinearOrder β] {a b : α} {c d : β} (h : a < b ↔ c < d)
    (h' : b < a ↔ d < c) : compare a b = compare c d := by
  rcases lt_trichotomy a b with hab | rfl | hab
  · rw [compare_lt_iff_lt.mpr hab, compare_lt_iff_lt.mpr (h.mp hab)]
  · have hcd : c = d := le_antisymm (not_lt.mp (mt h'.mpr (lt_irrefl a))) (not_lt.mp (mt h.mpr (lt_irrefl a)))
    rw [compare_eq_iff_eq.mpr rfl, compare_eq_iff_eq.mpr hcd]
  · rw [compare_gt_iff_gt.mpr hab, compare_gt_iff_gt.mpr (h'.mp hab)]

/-- A number with a sign. -/
def signed (negative : Bool) (a : ℚ) : ℚ := if negative then -a else a

theorem abs_signed (negative : Bool) {a : ℚ} (h : 0 ≤ a) : |signed negative a| = a := by
  unfold signed
  split_ifs
  · rw [abs_neg, abs_of_nonneg h]
  · exact abs_of_nonneg h

/-- The number that a double denotes. -/
def Dyadic.toRat (d : Dyadic) : ℚ := signed d.negative d.magnitude

theorem Dyadic.magnitude_nonneg (d : Dyadic) : 0 ≤ d.magnitude := by
  unfold magnitude
  positivity

namespace Bounded

/-- The number that a decimal denotes. -/
def toRat (b : Bounded) : ℚ := signed b.negative b.magnitude

theorem magnitude_nonneg (b : Bounded) : 0 ≤ b.magnitude := by
  unfold magnitude
  positivity

theorem compareInt_eq (i : Int) (b : Bounded) : compareInt i b = compare (i : ℚ) b.toRat := by
  have hplaces : (0 : ℚ) < 10 ^ b.places := by positivity
  have htoRat : b.toRat = ((if b.negative then -b.coefficient else b.coefficient : ℤ) : ℚ) / 10 ^ b.places := by
    unfold toRat signed magnitude
    split_ifs
    · push_cast
      ring
    · push_cast
      rfl
  rw [htoRat]
  unfold compareInt
  generalize (if b.negative then -b.coefficient else b.coefficient : ℤ) = c
  refine compare_congr ?_ ?_
  · rw [lt_div_iff₀ hplaces]
    exact_mod_cast Iff.rfl
  · rw [div_lt_iff₀ hplaces]
    exact_mod_cast Iff.rfl

end Bounded

/-- Numbers of one sign are on the same side of each integer if they are without their signs. -/
theorem SameSide.signed {a b : ℚ} (ha : 0 ≤ a) (hb : 0 ≤ b) (h : SameSide a b) (negative : Bool) (k : ℤ) :
    ((k : ℚ) ≤ signed negative a → (k : ℚ) ≤ signed negative b) ∧
      (signed negative a ≤ k → signed negative b ≤ k) := by
  have hzero : a ≤ 0 → b ≤ 0 := by simpa using (h 0).2
  obtain ⟨j, rfl | rfl⟩ := k.eq_nat_or_neg
  all_goals
    have hj : (0 : ℚ) ≤ j := j.cast_nonneg
    obtain ⟨hlow, hhigh⟩ := h j
    unfold PathQuery.signed
    push_cast
    split_ifs
  · exact ⟨fun hk => by linarith [hzero (by linarith)], fun _ => by linarith⟩
  · exact ⟨hlow, hhigh⟩
  · exact ⟨fun hk => by linarith [hhigh (by linarith)], fun hk => by linarith [hlow (by linarith)]⟩
  · exact ⟨fun _ => by linarith, fun hk => by linarith [hzero (by linarith)]⟩

/-- Two numbers of one sign are as far from each other as without it. -/
theorem abs_signed_sub (negative : Bool) (a b : ℚ) : |signed negative a - signed negative b| = |a - b| := by
  unfold signed
  split_ifs
  · rw [neg_sub_neg, abs_sub_comm]
  · rfl

namespace Bounded

/-- A decimal is in the order of the number that it stands for, or it is an integer that is near. -/
theorem StandsFor.order {a b : ℚ} (ha : 0 ≤ a) (hb : 0 ≤ b) (h : StandsFor b a) (negative : Bool) (n : ℤ) :
    compare (n : ℚ) (signed negative b) = compare (n : ℚ) (signed negative a) ∨
      compare (n : ℚ) (signed negative b) = .eq ∧ ¬IsShort a ∧ (∀ k : ℤ, signed negative a ≠ k) ∧
        |(n : ℚ) - signed negative a| < max (1 / 10 ^ 28) (|(n : ℚ)| / 2 ^ 49) := by
  have hside := h.sameSide.signed ha hb negative
  -- a decimal that is the number itself leaves nothing to show
  by_cases hsame : signed negative b = signed negative a
  · exact .inl (by rw [hsame])
  have hshort : ¬IsShort a := fun hs => hsame (by rw [h.short hs])
  have hwhole : ∀ k : ℤ, signed negative a ≠ k := fun k hk =>
    hsame (le_antisymm (hk ▸ (hside k).2 hk.le) (hk ▸ (hside k).1 hk.ge))
  by_cases hn : (n : ℚ) = signed negative b
  · refine .inr ⟨compare_eq_iff_eq.mpr hn, hshort, hwhole, ?_⟩
    have habs : (n.natAbs : ℚ) = |(n : ℚ)| := by rw [Nat.cast_natAbs, Int.cast_abs]
    have hb' : b = n.natAbs := by rw [habs, hn, abs_signed negative hb]
    have hclose := h.close n.natAbs hb'
    rwa [← hb', ← abs_signed_sub negative, abs_sub_comm, ← hn, hb', habs] at hclose
  · obtain ⟨hlow, hhigh⟩ := hside n
    refine .inl (compare_congr ⟨fun hlt => ?_, fun hlt => ?_⟩ ⟨fun hlt => ?_, fun hlt => ?_⟩)
    · exact lt_of_not_ge fun hle => absurd (hhigh hle) (not_le.mpr hlt)
    · exact lt_of_le_of_ne (hlow hlt.le) hn
    · exact lt_of_not_ge fun hle => absurd (hlow hle) (not_le.mpr hlt)
    · exact lt_of_le_of_ne (hhigh hlt.le) (Ne.symm hn)

end Bounded

namespace Number

/-- The number that a finite double denotes. -/
def denoted (x : Float) : ℚ := (Dyadic.ofFloat x).toRat

/-- A double that is too large for a decimal has a large power of two. -/
theorem le_exponent_of_magnitude {d : Dyadic} (hm : d.mantissa < 2 ^ 53) (h : 2 ^ 95 ≤ d.magnitude) :
    43 ≤ d.exponent := by
  by_contra hlt
  have hpow : (2 : ℚ) ^ d.exponent ≤ 2 ^ (42 : ℤ) := zpow_le_zpow_right₀ (by norm_num) (by omega)
  have hmantissa : (d.mantissa : ℚ) < 2 ^ 53 := by exact_mod_cast hm
  have hsmall : d.magnitude < 2 ^ 95 := calc
    d.magnitude ≤ d.mantissa * 2 ^ (42 : ℤ) := mul_le_mul_of_nonneg_left hpow (Nat.cast_nonneg _)
    _ < 2 ^ 53 * 2 ^ (42 : ℤ) := mul_lt_mul_of_pos_right hmantissa (by positivity)
    _ = 2 ^ 95 := by norm_num
  exact absurd h (not_le.mpr hsmall)

/-- A double that is too large for a decimal is beyond all integers. -/
theorem compare_large (n : Int64) {d : Dyadic} (h : 2 ^ 95 ≤ d.magnitude) :
    compare (n.toInt : ℚ) d.toRat = if d.negative then .gt else .lt := by
  have hlow : ((-2 ^ 63 : ℤ) : ℚ) ≤ n.toInt := by exact_mod_cast n.le_toInt
  have hhigh : (n.toInt : ℚ) < (2 ^ 63 : ℤ) := by exact_mod_cast n.toInt_lt
  norm_num at hlow hhigh h
  unfold Dyadic.toRat signed
  split_ifs
  · exact compare_gt_iff_gt.mpr (by linarith)
  · exact compare_lt_iff_lt.mpr (by linarith)

/-- **An integer and a finite double are in the order of the numbers that they denote**, or count as equal
though they are not: then the double is no whole number and no short decimal, and it is near. -/
theorem compareMixed?_order {n : Int64} {x : Float} (hx : x.isFinite = true) :
    compareMixed? n x = some (compare (n.toInt : ℚ) (denoted x)) ∨
      compareMixed? n x = some .eq ∧ ¬IsShort |denoted x| ∧ (∀ k : ℤ, denoted x ≠ k) ∧
        |(n.toInt : ℚ) - denoted x| < max (1 / 10 ^ 28) (|(n.toInt : ℚ)| / 2 ^ 49) := by
  have hmagnitude : |denoted x| = (Dyadic.ofFloat x).magnitude := abs_signed _ (Dyadic.magnitude_nonneg _)
  have hmixed (b : Bounded) (hb : Bounded.ofDyadic? (.ofFloat x) = some b) :
      compareMixed? n x = some (compare (n.toInt : ℚ) b.toRat) := by
    rw [compareMixed?, if_pos hx, hb, ← Bounded.compareInt_eq]
  rcases le_or_gt 0 (Dyadic.ofFloat x).exponent with hexponent | hexponent
  · left
    rcases Bounded.ofDyadic?_of_nonneg hexponent with ⟨b, hb, hnegative, hmagnitude⟩ | ⟨hnone, hlarge⟩
    · rw [hmixed b hb, Bounded.toRat, hnegative, hmagnitude]
      rfl
    · have hfar := le_exponent_of_magnitude (Dyadic.mantissa_ofBits_lt _) hlarge
      rw [compareMixed?, if_pos hx, hnone]
      exact (compareFloats?_nearestFloat n hx hfar).trans (congrArg some (compare_large n hlarge).symm)
  · obtain ⟨b, hb, hnegative, hstands⟩ := Bounded.ofDyadic?_of_neg hexponent.le (Dyadic.le_exponent_ofBits _)
    rw [hmixed b hb, Bounded.toRat, hnegative, hmagnitude]
    rcases hstands.order (Dyadic.magnitude_nonneg _) b.magnitude_nonneg (Dyadic.ofFloat x).negative n.toInt with
      h | ⟨h, hrest⟩
    · exact .inl (congrArg some h)
    · exact .inr ⟨congrArg some h, hrest⟩

/-- One and the next double after it. -/
theorem compareMixed?_order_one :
    let x := Float.ofBits 0x3ff0000000000001
    x.isFinite = true ∧ (compareMixed? 1 x = some (compare ((1 : Int64).toInt : ℚ) (denoted x)) ∨
      compareMixed? 1 x = some .eq ∧ ¬IsShort |denoted x| ∧ (∀ k : ℤ, denoted x ≠ k) ∧
        |((1 : Int64).toInt : ℚ) - denoted x| < max (1 / 10 ^ 28) (|((1 : Int64).toInt : ℚ)| / 2 ^ 49)) := by
  intro x
  have hx : x.isFinite = true := by decide
  exact ⟨hx, compareMixed?_order hx⟩

/-- An integer that is larger than a double with a half, and equal to it. -/
theorem compareMixed?_half :
    let x : Float := 2251799813685249.5
    x.isFinite = true ∧ compareMixed? 2251799813685250 x = some .eq ∧
      compare ((2251799813685250 : Int64).toInt : ℚ) (denoted x) = .gt := by
  intro x
  have hx : Dyadic.ofFloat x = ⟨false, 4503599627370499, -1⟩ := by decide
  have hn : (2251799813685250 : Int64).toInt = 2251799813685250 := by decide
  refine ⟨by decide, by decide, ?_⟩
  rw [denoted, hx, hn, compare_gt_iff_gt]
  norm_num [Dyadic.toRat, signed, Dyadic.magnitude]

end Number

end PathQuery
