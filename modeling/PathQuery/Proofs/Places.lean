/-
# What is left of a double in 28 places

A double with a negative power of two becomes a decimal by three passes that each lose something:
fives for the power of two (`times5`), places past the 28th (`dropPlaces`), and places while there are
53 bits (`fitDouble`). What they keep is said three times, of a step and then of a pass.

* No pass takes a number to the other side of a whole one; it may end on it (`SameSide`).
* The fives lose at most a part in `2 ^ 83`, the dropped places less than one in the 28th place, and
  the places after them a part in `2 ^ 49`.
* A number with a coefficient below `2 ^ 52` and at most 28 places is kept (`IsShort`).

Key definitions: `SameSide`, `IsShort`, `Bounded.pending`.
Key theorems: `Bounded.times5_invariant`, `Bounded.times5_sameSide`, `Bounded.dropPlaces_error`,
`Bounded.fitDouble_error`.
-/
import Mathlib.Algebra.Order.Field.Power
import Mathlib.Algebra.Order.Field.Rat
import Mathlib.Tactic.FieldSimp
import Mathlib.Tactic.Linarith
import Mathlib.Tactic.Positivity
import Mathlib.Tactic.Ring
import PathQuery.Decimal.Bounded

namespace PathQuery

/-- A number on the same side of each whole number as another, or on it. -/
def SameSide (a b : ℚ) : Prop := ∀ k : ℕ, ((k : ℚ) ≤ a → (k : ℚ) ≤ b) ∧ (a ≤ k → b ≤ k)

namespace SameSide

variable {a b c : ℚ}

theorem refl (a : ℚ) : SameSide a a := fun _ => ⟨id, id⟩

theorem trans (h : SameSide a b) (h' : SameSide b c) : SameSide a c := fun k =>
  ⟨fun hk => (h' k).1 ((h k).1 hk), fun hk => (h' k).2 ((h k).2 hk)⟩

theorem of_nat {m n p q : ℕ} (hp : 0 < p) (hq : 0 < q)
    (h : ∀ k, (k * p ≤ m → k * q ≤ n) ∧ (m ≤ k * p → n ≤ k * q)) : SameSide (m / p) (n / q) := by
  intro k
  have hp' : (0 : ℚ) < p := Nat.cast_pos.mpr hp
  have hq' : (0 : ℚ) < q := Nat.cast_pos.mpr hq
  rw [le_div_iff₀ hp', le_div_iff₀ hq', div_le_iff₀ hp', div_le_iff₀ hq']
  exact_mod_cast h k

end SameSide

/-- A decimal with a coefficient below `2 ^ 52` and at most 28 places. -/
def IsShort (a : ℚ) : Prop := ∃ c p : ℕ, c < 2 ^ 52 ∧ p ≤ 28 ∧ a = c / 10 ^ p

namespace Bounded

theorem limit96_eq : limit96 = 2 ^ 96 := rfl

/-! ### Fives -/

/-- A decimal that is still to be multiplied by some fives. -/
def pending (count m : ℕ) (e : ℤ) : ℚ := m * 5 ^ count * 10 ^ e

theorem pending_nonneg (count m : ℕ) (e : ℤ) : 0 ≤ pending count m e := by
  unfold pending
  positivity

theorem pending_five (count m : ℕ) (e : ℤ) : pending count (5 * m) e = pending (count + 1) m e := by
  simp only [pending, pow_succ]
  push_cast
  ring

theorem pending_half (count m : ℕ) (e : ℤ) : pending count m (e + 1) = pending (count + 1) (2 * m) e := by
  simp only [pending, pow_succ, zpow_add_one₀ (show (10 : ℚ) ≠ 0 by norm_num)]
  push_cast
  ring

/-- As many tens as fives leave twos. -/
theorem pending_neg (count m t : ℕ) : pending count m (-(count + t : ℕ)) = m / (2 ^ count * 10 ^ t : ℕ) := by
  have htens : (10 : ℚ) ^ count = 2 ^ count * 5 ^ count := by
    rw [← mul_pow]
    norm_num
  rw [pending, zpow_neg, zpow_natCast, pow_add, htens]
  push_cast
  field_simp

/-- **What each step keeps, the pass keeps.** A step takes a five, or halves an even coefficient, or
halves an odd one that has no room for a five. -/
theorem times5_invariant {I : ℕ → ℕ → ℤ → Prop}
    (five : ∀ count m e, m % 2 = 1 → I (count + 1) m e → I count (5 * m) e)
    (half : ∀ count m e, I (count + 1) (2 * m) e → I count m (e + 1))
    (cut : ∀ count m e, 2 ^ 96 ≤ 5 * (2 * m + 1) → I (count + 1) (2 * m + 1) e → I count m (e + 1)) :
    ∀ count m e, I count m e → I 0 (times5 count m e).1 (times5 count m e).2
  | 0, _, _, h => h
  | count + 1, m, e, h => by
    rw [times5, limit96_eq]
    split_ifs with hodd
    · exact times5_invariant five half cut _ _ _ (five _ _ _ hodd.1 h)
    · refine times5_invariant five half cut _ _ _ ?_
      rcases Nat.even_or_odd' m with ⟨j, rfl | rfl⟩
      · rw [Nat.mul_div_cancel_left _ (by decide)]
        exact half _ _ _ h
      · rw [show (2 * j + 1) / 2 = j by omega]
        exact cut _ _ _ (by omega) h

/-- A half that is lost takes nothing to the other side of a whole number. -/
theorem cut_sameSide {count m : ℕ} {e : ℤ} (h : ((count + 1 : ℕ) : ℤ) ≤ -e) :
    SameSide (pending (count + 1) (2 * m + 1) e) (pending count m (e + 1)) := by
  obtain ⟨t, ht⟩ : ∃ t : ℕ, e = -((count + 1 + t : ℕ) : ℤ) := ⟨(-e - (count + 1 : ℕ)).toNat, by omega⟩
  rw [pending_half, ht, pending_neg, pending_neg]
  refine .of_nat (by positivity) (by positivity) fun k => ⟨fun hk => ?_, fun hk => by omega⟩
  have heven : k * (2 ^ (count + 1) * 10 ^ t) = 2 * (k * (2 ^ count * 10 ^ t)) := by ring
  omega

theorem times5_sameSide {count : ℕ} (m : ℕ) {e : ℤ} (h : (count : ℤ) ≤ -e) :
    (times5 count m e).2 ≤ 0 ∧
      SameSide (pending count m e) (pending 0 (times5 count m e).1 (times5 count m e).2) := by
  have hinv := times5_invariant (I := fun c n d => (c : ℤ) ≤ -d ∧ SameSide (pending count m e) (pending c n d))
    (fun c n d _ hI => ⟨by omega, by rw [pending_five]; exact hI.2⟩)
    (fun c n d hI => ⟨by omega, by rw [pending_half]; exact hI.2⟩)
    (fun c n d _ hI => ⟨by omega, hI.2.trans (cut_sameSide hI.1)⟩) count m e ⟨h, .refl _⟩
  exact ⟨by omega, hinv.2⟩

/-- A half that is lost is at most a part in `2 ^ 93`. -/
theorem cut_error (count : ℕ) {m : ℕ} (e : ℤ) (h : 2 ^ 96 ≤ 5 * (2 * m + 1)) :
    pending count m (e + 1) ≤ pending (count + 1) (2 * m + 1) e ∧
      pending (count + 1) (2 * m + 1) e - pending count m (e + 1) ≤
        pending (count + 1) (2 * m + 1) e * (5 / 2 ^ 96) := by
  have hunit : (0 : ℚ) ≤ 5 ^ (count + 1) * 10 ^ e := by positivity
  have hroom : (2 : ℚ) ^ 96 ≤ 5 * (2 * m + 1) := by exact_mod_cast h
  have hunits (k : ℕ) : pending (count + 1) k e = k * (5 ^ (count + 1) * 10 ^ e) := mul_assoc _ _ _
  rw [pending_half, hunits, hunits]
  push_cast
  generalize (5 : ℚ) ^ (count + 1) * 10 ^ e = u at hunit ⊢
  exact ⟨by linarith, by nlinarith only [hunit, hroom]⟩

/-- All fives lose at most a part in `2 ^ 93` each. -/
theorem times5_error (count m : ℕ) (e : ℤ) :
    pending 0 (times5 count m e).1 (times5 count m e).2 ≤ pending count m e ∧
      pending count m e - pending 0 (times5 count m e).1 (times5 count m e).2 ≤
        pending count m e * (5 / 2 ^ 96) * count := by
  have hnonneg := pending_nonneg count m e
  have hinv := times5_invariant
    (I := fun c n d => pending c n d ≤ pending count m e ∧
      pending count m e - pending c n d ≤ pending count m e * (5 / 2 ^ 96) * (count - c))
    (fun c n d _ hI => by
      rw [pending_five]
      push_cast at hI
      exact ⟨hI.1, by linarith [hI.2]⟩)
    (fun c n d hI => by
      rw [pending_half]
      push_cast at hI
      exact ⟨hI.1, by linarith [hI.2]⟩)
    (fun c n d hroom hI => by
      have hcut := cut_error c d hroom
      push_cast at hI
      exact ⟨hcut.1.trans hI.1, by linarith [hI.1, hI.2, hcut.2]⟩) count m e ⟨le_refl _, by simp⟩
  simpa using hinv

/-- An odd coefficient with no room for a five is no short decimal. -/
theorem not_isShort_pending {count m : ℕ} (e : ℤ) (h : 2 ^ 96 ≤ 5 * (2 * m + 1)) :
    ¬IsShort (pending count (2 * m + 1) e) := by
  rintro ⟨c, p, hc, -, heq⟩
  rw [pending, eq_div_iff (by positivity), mul_assoc, ← zpow_natCast (10 : ℚ) p, ← zpow_add₀ (by norm_num)] at heq
  have hpow : 1 ≤ 5 ^ count := Nat.one_le_pow _ _ (by decide)
  rcases hplaces : e + p with t | t
  · rw [hplaces, Int.ofNat_eq_natCast, zpow_natCast] at heq
    have hnat : (2 * m + 1) * 5 ^ count * 10 ^ t = c := by exact_mod_cast heq
    have hten : 1 ≤ 10 ^ t := Nat.one_le_pow _ _ (by decide)
    have hle : (2 * m + 1) * 1 * 1 ≤ (2 * m + 1) * 5 ^ count * 10 ^ t :=
      Nat.mul_le_mul (Nat.mul_le_mul_left _ hpow) hten
    omega
  · rw [hplaces, zpow_negSucc, ← div_eq_mul_inv, div_eq_iff (by positivity)] at heq
    have hnat : (2 * m + 1) * 5 ^ count = c * 10 ^ (t + 1) := by exact_mod_cast heq
    have hodd : Odd ((2 * m + 1) * 5 ^ count) := (odd_two_mul_add_one m).mul (Odd.pow (by decide))
    have heven : Even (c * 10 ^ (t + 1)) :=
      Even.mul_left (Even.pow_of_ne_zero (by decide) (Nat.succ_ne_zero t)) c
    exact Nat.not_even_iff_odd.mpr hodd (hnat ▸ heven)

/-- A short decimal is not cut. -/
theorem times5_short {count m : ℕ} {e : ℤ} (h : IsShort (pending count m e)) :
    pending 0 (times5 count m e).1 (times5 count m e).2 = pending count m e :=
  times5_invariant (I := fun c n d => pending c n d = pending count m e)
    (fun _ _ _ _ hI => by rw [pending_five, hI])
    (fun _ _ _ hI => by rw [pending_half, hI])
    (fun _ _ d hroom hI => absurd (hI ▸ h) (not_isShort_pending d hroom)) count m e rfl

/-! ### Places -/

/-- The coefficient with one place less. -/
def tenth (m : ℕ) : ℕ := m / 10 + if 5 ≤ m % 10 then 1 else 0

theorem tenth_sameSide (m p : ℕ) : SameSide (m / 10 ^ (p + 1)) (tenth m / 10 ^ p) := by
  have h : SameSide (m / (10 ^ (p + 1) : ℕ)) (tenth m / (10 ^ p : ℕ)) := by
    refine .of_nat (by positivity) (by positivity) fun k => ?_
    rw [pow_succ, ← mul_assoc]
    generalize k * 10 ^ p = n
    unfold tenth
    split_ifs <;> omega
  exact_mod_cast h

theorem tenth_error (m : ℕ) : |(m : ℤ) - 10 * tenth m| ≤ 5 := by
  unfold tenth
  rw [abs_le]
  split_ifs <;> omega

theorem tenth_mul (m : ℕ) : tenth (m * 10) = m := by
  unfold tenth
  rw [if_neg (by omega)]
  omega

theorem dropPlaces_succ {m : ℕ} (count : ℕ) (h : m / 10 ≠ 0) :
    dropPlaces (count + 1) m = dropPlaces count (tenth m) := if_neg h

theorem dropPlaces_of_lt {m : ℕ} (count : ℕ) (h : m < 10) : dropPlaces (count + 1) m = 0 :=
  if_pos (Nat.div_eq_of_lt h)

theorem dropPlaces_sameSide (p : ℕ) :
    ∀ count m : ℕ, SameSide (m / 10 ^ (p + count)) (dropPlaces count m / 10 ^ p)
  | 0, _ => .refl _
  | count + 1, m => by
    by_cases h : m < 10
    · rw [dropPlaces_of_lt count h]
      have hzero : SameSide (m / (10 ^ (p + (count + 1)) : ℕ)) ((0 : ℕ) / (10 ^ p : ℕ)) := by
        refine .of_nat (by positivity) (by positivity) fun k => ⟨fun hk => ?_, fun _ => Nat.zero_le _⟩
        rw [← add_assoc, pow_succ] at hk
        have hten : 1 ≤ 10 ^ (p + count) := Nat.one_le_pow _ _ (by decide)
        have hk0 : k = 0 := by
          by_contra hne
          have hmul : 1 * (1 * 10) ≤ k * (10 ^ (p + count) * 10) :=
            Nat.mul_le_mul (by omega) (Nat.mul_le_mul_right _ hten)
          omega
        rw [hk0, zero_mul]
      exact_mod_cast hzero
    · rw [dropPlaces_succ count (by omega)]
      exact (tenth_sameSide m (p + count)).trans (dropPlaces_sameSide p count (tenth m))

/-- What is dropped is less than one in the last place that is left. -/
theorem dropPlaces_error :
    ∀ count m : ℕ, 25 * |(m : ℤ) - 10 ^ count * dropPlaces count m| + 14 ≤ 24 * 10 ^ count
  | 0, m => by simp [dropPlaces]
  | count + 1, m => by
    by_cases h : m < 10
    · have hten : (1 : ℤ) ≤ 10 ^ count := one_le_pow₀ (by decide)
      rw [dropPlaces_of_lt count h, pow_succ, Nat.cast_zero, mul_zero, sub_zero, Nat.abs_cast]
      omega
    · have hrest := dropPlaces_error count (tenth m)
      have htenth := tenth_error m
      rw [dropPlaces_succ count (by omega), pow_succ]
      have hsum : (m : ℤ) - 10 ^ count * 10 * dropPlaces count (tenth m) =
          (m - 10 * tenth m) + 10 * (tenth m - 10 ^ count * dropPlaces count (tenth m)) := by ring
      have hle := abs_add_le ((m : ℤ) - 10 * tenth m) (10 * (tenth m - 10 ^ count * dropPlaces count (tenth m)))
      rw [abs_mul, abs_of_pos (by decide : (0 : ℤ) < 10)] at hle
      rw [hsum]
      linarith

/-- Zeros are dropped without a loss. -/
theorem dropPlaces_mul (m : ℕ) : ∀ count : ℕ, dropPlaces count (m * 10 ^ count) = m
  | 0 => by rw [pow_zero, mul_one, dropPlaces]
  | count + 1 => by
    rcases Nat.eq_zero_or_pos m with rfl | hm
    · rw [zero_mul, dropPlaces_of_lt count (by decide)]
    · have hten : 1 * 1 ≤ m * 10 ^ count := Nat.mul_le_mul hm (Nat.one_le_pow _ _ (by decide))
      rw [pow_succ, ← mul_assoc, dropPlaces_succ count (by omega), tenth_mul, dropPlaces_mul m count]

/-! ### Digits -/

theorem fitDouble_succ (p m : ℕ) :
    fitDouble (p + 1) m = if m < 2 ^ 52 then (m, p + 1) else fitDouble p (tenth m) := rfl

theorem fitDouble_sameSide : ∀ p m : ℕ,
    SameSide (m / 10 ^ p) ((fitDouble p m).1 / 10 ^ (fitDouble p m).2)
  | 0, _ => .refl _
  | p + 1, m => by
    rw [fitDouble_succ]
    split_ifs
    · exact .refl _
    · exact (tenth_sameSide m p).trans (fitDouble_sameSide p (tenth m))

/-- A coefficient that was rounded has 49 bits left. -/
theorem fitDouble_eq_or : ∀ p m : ℕ, fitDouble p m = (m, p) ∨ 2 ^ 52 ≤ 10 * (fitDouble p m).1
  | 0, _ => .inl rfl
  | p + 1, m => by
    rw [fitDouble_succ]
    split_ifs with hm
    · exact .inl rfl
    · right
      rcases fitDouble_eq_or p (tenth m) with h | h
      · rw [h]
        show 2 ^ 52 ≤ 10 * tenth m
        unfold tenth
        split_ifs <;> omega
      · exact h

/-- What is rounded away is a part of the last place that is left. -/
theorem fitDouble_error : ∀ p m : ℕ,
    9 * |(m / 10 ^ p : ℚ) - (fitDouble p m).1 / 10 ^ (fitDouble p m).2| ≤
      5 * (1 / 10 ^ (fitDouble p m).2 - 1 / 10 ^ p)
  | 0, m => by simp [fitDouble]
  | p + 1, m => by
    rw [fitDouble_succ]
    split_ifs with hm
    · simp
    · have hrest := fitDouble_error p (tenth m)
      have htenth : |(m : ℚ) - 10 * tenth m| ≤ 5 := by exact_mod_cast tenth_error m
      have hplace : (m / 10 ^ (p + 1) : ℚ) - tenth m / 10 ^ p = (m - 10 * tenth m) * (1 / 10 ^ (p + 1)) := by
        field_simp
        ring
      have hfirst : |(m / 10 ^ (p + 1) : ℚ) - tenth m / 10 ^ p| ≤ 5 * (1 / 10 ^ (p + 1)) := by
        rw [hplace, abs_mul, abs_of_pos (show (0 : ℚ) < 1 / 10 ^ (p + 1) by positivity)]
        exact mul_le_mul_of_nonneg_right htenth (by positivity)
      have hten : (1 / 10 ^ p : ℚ) = 10 * (1 / 10 ^ (p + 1)) := by
        field_simp
        ring
      have hle := abs_sub_le (m / 10 ^ (p + 1) : ℚ) (tenth m / 10 ^ p)
        ((fitDouble p (tenth m)).1 / 10 ^ (fitDouble p (tenth m)).2)
      linarith

/-- A short decimal keeps its digits. -/
theorem fitDouble_mul {c : ℕ} (hc : c < 2 ^ 52) (p : ℕ) : ∀ k : ℕ,
    ((fitDouble (p + k) (c * 10 ^ k)).1 / 10 ^ (fitDouble (p + k) (c * 10 ^ k)).2 : ℚ) = c / 10 ^ p
  | 0 => by
    rw [pow_zero, mul_one, add_zero]
    cases p with
    | zero => rfl
    | succ p => rw [fitDouble_succ, if_pos hc]
  | k + 1 => by
    rw [← add_assoc, pow_succ, ← mul_assoc, fitDouble_succ, tenth_mul]
    split_ifs
    · push_cast
      field_simp
      ring
    · exact fitDouble_mul hc p k

/-! ### All passes -/

/-- The number without its sign. -/
def magnitude (b : Bounded) : ℚ := b.coefficient / 10 ^ b.places

/-- What a decimal says of the number that it stands for. -/
structure StandsFor (b a : ℚ) : Prop where
  sameSide : SameSide a b
  short : IsShort a → b = a
  close : ∀ k : ℕ, b = k → |a - k| < max (1 / 10 ^ 28) ((k : ℚ) / 2 ^ 49)

end Bounded

/-- The number without its sign. -/
def Dyadic.magnitude (d : Dyadic) : ℚ := d.mantissa * 2 ^ d.exponent

namespace Bounded

variable {d : Dyadic}

/-- A whole number that the fives leave in bounds is the decimal. -/
theorem over5_self : ∀ count m : ℕ, over5 count m count = some (m * 2 ^ count, 0) ∨
    over5 count m count = none ∧ 2 ^ 95 ≤ m * 2 ^ count
  | 0, m => .inl (by rw [over5, pow_zero, mul_one]; rfl)
  | count + 1, m => by
    have hdown : ((count + 1 : ℕ) : ℤ) - 1 = count := by omega
    rw [over5, hdown, limit96_eq, show m * 2 ^ (count + 1) = 2 * m * 2 ^ count by ring]
    split_ifs with hm hroom
    · exact over5_self count (2 * m)
    · refine .inr ⟨rfl, ?_⟩
      have hpow : 1 ≤ 2 ^ count := Nat.one_le_pow _ _ (by decide)
      have hmul : 2 * m * 1 ≤ 2 * m * 2 ^ count := Nat.mul_le_mul_left _ hpow
      omega
    · exact absurd (by omega) hroom

/-- **A double without a fraction is a decimal as it is**, if it is not too large. -/
theorem ofDyadic?_of_nonneg (h : 0 ≤ d.exponent) :
    (∃ b, ofDyadic? d = some b ∧ b.negative = d.negative ∧ b.magnitude = d.magnitude) ∨
      ofDyadic? d = none ∧ 2 ^ 95 ≤ d.magnitude := by
  obtain ⟨negative, m, e⟩ := d
  obtain ⟨count, rfl⟩ := Int.eq_ofNat_of_zero_le h
  have htimes : times5 (-(count : ℤ)).toNat m count = (m, (count : ℤ)) := by
    rw [show (-(count : ℤ)).toNat = 0 by omega, times5]
  rcases over5_self count m with hover | ⟨hover, hlarge⟩
  · refine .inl ⟨⟨negative, m * 2 ^ count, 0⟩, ?_, rfl, ?_⟩
    · simp only [ofDyadic?, htimes, Int.toNat_natCast, hover, bind, Option.bind]
      rfl
    · simp [magnitude, Dyadic.magnitude]
  · refine .inr ⟨?_, ?_⟩
    · simp only [ofDyadic?, htimes, Int.toNat_natCast, hover, bind, Option.bind]
    · rw [Dyadic.magnitude, zpow_natCast]
      exact_mod_cast hlarge

/-- The three passes over a double with a fraction. -/
theorem ofDyadic?_of_nonpos (negative : Bool) {m count n : ℕ} {e : ℤ} (htimes : times5 count m (-count) = (n, e))
    (he : e ≤ 0) :
    ofDyadic? ⟨negative, m, -count⟩ =
      let kept := fitDouble (min (-e).toNat 28) (dropPlaces ((-e).toNat - 28) n)
      some ⟨negative, kept.1, kept.2⟩ := by
  simp only [ofDyadic?, neg_neg, Int.toNat_natCast, htimes, show (-(count : ℤ)).toNat = 0 by omega, over5, bind,
    Option.bind, show e.toNat = 0 by omega, times10]

/-- A short decimal written with more places ends with zeros. -/
theorem exists_zeros {n places : ℕ} (h : IsShort (n / 10 ^ places)) :
    ∃ c p k : ℕ, c < 2 ^ 52 ∧ p ≤ 28 ∧ places = p + k ∧ n = c * 10 ^ k := by
  obtain ⟨c, p, hc, hp, heq⟩ := h
  rw [div_eq_div_iff (by positivity) (by positivity)] at heq
  have hnat : n * 10 ^ p = c * 10 ^ places := by exact_mod_cast heq
  rcases Nat.le_total p places with hle | hle
  · obtain ⟨k, rfl⟩ := Nat.exists_eq_add_of_le hle
    refine ⟨c, p, k, hc, hp, rfl, Nat.eq_of_mul_eq_mul_right (Nat.pow_pos (n := p) (by decide : 0 < 10)) ?_⟩
    rw [hnat]
    ring
  · obtain ⟨k, rfl⟩ := Nat.exists_eq_add_of_le hle
    have hn : n * 10 ^ k = c := by
      refine Nat.eq_of_mul_eq_mul_right (Nat.pow_pos (n := places) (by decide : 0 < 10)) ?_
      rw [← hnat]
      ring
    have hpow : n * 1 ≤ n * 10 ^ k := Nat.mul_le_mul_left _ (Nat.one_le_pow _ _ (by decide))
    exact ⟨n, places, 0, by omega, by omega, rfl, by rw [pow_zero, mul_one]⟩

/-- The last two passes, of a coefficient with some places. -/
def round (n places : ℕ) : ℕ × ℕ := fitDouble (min places 28) (dropPlaces (places - 28) n)

theorem round_sameSide (n places : ℕ) :
    SameSide (n / 10 ^ places) ((round n places).1 / 10 ^ (round n places).2) := by
  have hdrop := dropPlaces_sameSide (min places 28) (places - 28) n
  rw [show min places 28 + (places - 28) = places by omega] at hdrop
  exact hdrop.trans (fitDouble_sameSide _ _)

theorem round_short {n places : ℕ} (h : IsShort (n / 10 ^ places)) :
    ((round n places).1 / 10 ^ (round n places).2 : ℚ) = n / 10 ^ places := by
  obtain ⟨c, p, k, hc, hp, rfl, rfl⟩ := exists_zeros h
  have hdrop : dropPlaces (p + k - 28) (c * 10 ^ k) = c * 10 ^ (min (p + k) 28 - p) := by
    rw [show c * 10 ^ k = c * 10 ^ (min (p + k) 28 - p) * 10 ^ (p + k - 28) by
      rw [mul_assoc, ← pow_add, show min (p + k) 28 - p + (p + k - 28) = k by omega]]
    exact dropPlaces_mul _ _
  have hfit := fitDouble_mul hc p (min (p + k) 28 - p)
  rw [show p + (min (p + k) 28 - p) = min (p + k) 28 by omega, ← hdrop] at hfit
  rw [round, hfit]
  push_cast
  rw [pow_add]
  field_simp

/-- Dropped places are less than one in the 28th place. -/
theorem dropped_error (n places : ℕ) :
    |(n / 10 ^ places : ℚ) - dropPlaces (places - 28) n / 10 ^ min places 28| ≤ 24 / 25 / 10 ^ 28 := by
  rcases Nat.le_total places 28 with hle | hle
  · rw [Nat.sub_eq_zero_of_le hle, min_eq_left hle, dropPlaces, sub_self, abs_zero]
    norm_num
  · obtain ⟨count, rfl⟩ := Nat.exists_eq_add_of_le hle
    rw [Nat.add_sub_cancel_left, min_eq_right hle]
    have herror : 25 * |(n : ℚ) - 10 ^ count * dropPlaces count n| + 14 ≤ 24 * 10 ^ count := by
      exact_mod_cast dropPlaces_error count n
    have hplace : (n / 10 ^ (28 + count) : ℚ) - dropPlaces count n / 10 ^ 28 =
        (n - 10 ^ count * dropPlaces count n) / 10 ^ (28 + count) := by
      rw [pow_add]
      field_simp
    rw [hplace, abs_div, abs_of_pos (show (0 : ℚ) < 10 ^ (28 + count) by positivity),
      div_le_iff₀ (by positivity), pow_add]
    linarith

/-- Digits that are rounded away are a part of what is left. -/
theorem rounded_error (places m : ℕ) :
    9 * |(m / 10 ^ places : ℚ) - (fitDouble places m).1 / 10 ^ (fitDouble places m).2| ≤
      50 * ((fitDouble places m).1 / 10 ^ (fitDouble places m).2) / 2 ^ 52 := by
  rcases fitDouble_eq_or places m with h | h
  · rw [h, sub_self, abs_zero, mul_zero]
    positivity
  · have herror := fitDouble_error places m
    generalize fitDouble places m = kept at h herror ⊢
    have hbits : (2 : ℚ) ^ 52 ≤ 10 * kept.1 := by exact_mod_cast h
    have hlast : (0 : ℚ) < 1 / 10 ^ kept.2 := by positivity
    have hplaces : (0 : ℚ) < 1 / 10 ^ places := by positivity
    rw [div_eq_mul_one_div (kept.1 : ℚ)] at herror ⊢
    rw [le_div_iff₀ (by positivity)]
    generalize (1 / 10 ^ kept.2 : ℚ) = u at herror hlast ⊢
    nlinarith only [hbits, hlast, hplaces, herror]

/-! ### The decimal of a double -/

theorem magnitude_eq_pending (negative : Bool) (m count : ℕ) :
    Dyadic.magnitude ⟨negative, m, -count⟩ = pending count m (-count) := by
  have hneg := pending_neg count m 0
  rw [add_zero, pow_zero, mul_one] at hneg
  rw [hneg, Dyadic.magnitude, zpow_neg, zpow_natCast, ← div_eq_mul_inv]
  push_cast
  rfl

theorem pending_zero {n : ℕ} {e : ℤ} (he : e ≤ 0) : pending 0 n e = n / 10 ^ (-e).toNat := by
  obtain ⟨t, rfl⟩ : ∃ t : ℕ, e = -(t : ℤ) := ⟨(-e).toNat, by omega⟩
  have hneg := pending_neg 0 n t
  rw [zero_add, pow_zero, one_mul] at hneg
  rw [hneg, neg_neg, Int.toNat_natCast]
  push_cast
  rfl

/-- What the three passes lose together. -/
theorem close_of_errors {a v w : ℚ} {count k : ℕ} (hcount : count ≤ 1074) (ha : 0 ≤ a) (hv : v ≤ a)
    (hfives : a - v ≤ a * (5 / 2 ^ 96) * count) (hdropped : |v - w| ≤ 24 / 25 / 10 ^ 28)
    (hrounded : 9 * |w - k| ≤ 50 * k / 2 ^ 52) : |a - k| < max (1 / 10 ^ 28) ((k : ℚ) / 2 ^ 49) := by
  have hcount' : (count : ℚ) ≤ 1074 := by exact_mod_cast hcount
  have hpart : a * (5 / 2 ^ 96) * count ≤ a * (5 / 2 ^ 96) * 1074 :=
    mul_le_mul_of_nonneg_left hcount' (by positivity)
  obtain ⟨hdropped, hdropped'⟩ := abs_le.mp hdropped
  have hrounded' : |w - k| ≤ 50 * k / 2 ^ 52 / 9 := by linarith
  obtain ⟨hlow, hhigh⟩ := abs_le.mp hrounded'
  rcases Nat.eq_zero_or_pos k with rfl | hk
  · refine lt_max_of_lt_left (abs_lt.mpr ?_)
    norm_num at hlow hhigh hpart hdropped hdropped' ⊢
    constructor <;> linarith
  · have hk' : (1 : ℚ) ≤ k := by exact_mod_cast hk
    refine lt_max_of_lt_right (abs_lt.mpr ?_)
    norm_num at hlow hhigh hpart hdropped hdropped' ⊢
    constructor <;> linarith

/-- **A double with a fraction has a decimal that stands for it.** -/
theorem ofDyadic?_of_neg (h : d.exponent ≤ 0) (hrange : -1074 ≤ d.exponent) :
    ∃ b, ofDyadic? d = some b ∧ b.negative = d.negative ∧ StandsFor b.magnitude d.magnitude := by
  obtain ⟨negative, m, e⟩ := d
  obtain ⟨count, rfl⟩ : ∃ count : ℕ, e = -(count : ℤ) := ⟨(-e).toNat, by simp only at h; omega⟩
  have hcount : count ≤ 1074 := by
    simp only at hrange
    omega
  obtain ⟨he, hside⟩ := times5_sameSide m (show (count : ℤ) ≤ -(-count) by omega)
  have herror := times5_error count m (-count)
  have hshort : IsShort (pending count m (-count)) → _ := times5_short
  have hdecimal := ofDyadic?_of_nonpos negative rfl he
  have hnonneg := pending_nonneg count m (-count)
  rw [pending_zero he] at hside herror hshort
  rw [magnitude_eq_pending]
  generalize times5 count m (-count) = kept at hside herror hshort hdecimal
  generalize (-kept.2).toNat = places at hside herror hshort hdecimal
  refine ⟨_, hdecimal, rfl, hside.trans (round_sameSide _ _), fun h => ?_, fun k hk => ?_⟩
  · have hkept := hshort h
    exact (round_short (hkept ▸ h)).trans hkept
  · have hrounded := rounded_error (min places 28) (dropPlaces (places - 28) kept.1)
    rw [show (fitDouble _ _).1 / _ = (k : ℚ) from hk] at hrounded
    exact close_of_errors hcount hnonneg herror.1 herror.2 (dropped_error _ _) hrounded

end Bounded

end PathQuery
