/-
# What a range is read from

A rule looks at a range of a text through its characters, through trimming and
through searching. All three read the characters of the range and nothing else:
if another text holds the same characters `k` places further on (`Window`), they
give the same answers there, `k` places further on. The slices of a range and of
its parts are related as lists.

Key definitions: `Span.shift`, `Span.Inside`, `Source.Window`.
Key theorems: `Source.Window.trim`, `Source.Window.slice`, `Source.Window.findAll`,
`Source.slice_append`, `Source.slice_trim`.
-/
import PathQuery.Text.Span

namespace PathQuery

namespace Span

/-- The range `k` places further on. -/
def shift (k : Nat) (s : Span) : Span := ⟨s.start + k, s.stop + k⟩

/-- Whether a range lies in another. -/
def Inside (r s : Span) : Prop := s.start ≤ r.start ∧ r.stop ≤ s.stop

theorem Inside.trans {r s t : Span} (h : r.Inside s) (h' : s.Inside t) : r.Inside t :=
  ⟨Nat.le_trans h'.1 h.1, Nat.le_trans h.2 h'.2⟩

theorem inner_inside (s : Span) : s.inner.Inside s := ⟨Nat.le_succ _, Nat.sub_le _ _⟩

theorem shift_zero (s : Span) : s.shift 0 = s := rfl

theorem shift_length (k : Nat) (s : Span) : (s.shift k).length = s.length := by
  simp only [length, shift]
  omega

theorem shift_inner (k : Nat) (s : Span) (h : 0 < s.stop) : (s.shift k).inner = s.inner.shift k := by
  simp only [inner, shift, mk.injEq]
  omega

end Span

namespace Source

variable {src src' : Source} {k : Nat} {s : Span}

/-! ### Spaces at an end -/

theorem afterSpaces_bounds (src : Source) : ∀ count position : Nat,
    position ≤ src.afterSpaces count position ∧ src.afterSpaces count position ≤ position + count
  | 0, _ => ⟨Nat.le_refl _, Nat.le_refl _⟩
  | count + 1, position => by
    have ih := afterSpaces_bounds src count (position + 1)
    unfold afterSpaces
    split <;> omega

theorem beforeSpaces_bounds (src : Source) : ∀ count position : Nat,
    src.beforeSpaces count position ≤ position ∧ position ≤ src.beforeSpaces count position + count
  | 0, _ => ⟨Nat.le_refl _, Nat.le_refl _⟩
  | count + 1, position => by
    have ih := beforeSpaces_bounds src count (position - 1)
    unfold beforeSpaces
    split <;> omega

/-- What is passed over at the start is spaces. -/
theorem charAt_of_lt_afterSpaces (src : Source) : ∀ count position p : Nat, position ≤ p →
    p < src.afterSpaces count position → src.charAt p = some ' '
  | 0, _, _, hp, hlt => absurd hlt (Nat.not_lt.mpr hp)
  | count + 1, position, p, hp, hlt => by
    unfold afterSpaces at hlt
    split at hlt
    · rename_i hc
      rcases Nat.eq_or_lt_of_le hp with rfl | hp
      · exact hc
      · exact charAt_of_lt_afterSpaces src count (position + 1) p hp hlt
    · omega

/-- What is passed over at the end is spaces. -/
theorem charAt_of_beforeSpaces_le (src : Source) : ∀ count position p : Nat, p < position →
    src.beforeSpaces count position ≤ p → src.charAt p = some ' '
  | 0, _, _, hp, hle => absurd hp (Nat.not_lt.mpr hle)
  | count + 1, position, p, hp, hle => by
    unfold beforeSpaces at hle
    split at hle
    · rename_i hc
      rcases Nat.eq_or_lt_of_le (Nat.le_sub_one_of_lt hp) with rfl | hp
      · exact hc
      · exact charAt_of_beforeSpaces_le src count (position - 1) p hp hle
    · omega

/-- A character that is not a space stops the search from the left. -/
theorem charAt_afterSpaces (src : Source) : ∀ count position : Nat,
    src.afterSpaces count position < position + count →
      src.charAt (src.afterSpaces count position) ≠ some ' '
  | 0, position, h => absurd h (Nat.lt_irrefl position)
  | count + 1, position, h => by
    unfold afterSpaces at h ⊢
    split
    · rename_i hc
      rw [if_pos hc] at h
      exact charAt_afterSpaces src count (position + 1) (by omega)
    · assumption

/-- A character that is not a space stops the search from the right. -/
theorem charAt_beforeSpaces (src : Source) : ∀ count position : Nat, count < position →
    position < src.beforeSpaces count position + count →
      src.charAt (src.beforeSpaces count position - 1) ≠ some ' '
  | 0, position, _, h => absurd h (Nat.lt_irrefl position)
  | count + 1, position, hc, h => by
    unfold beforeSpaces at h ⊢
    split
    · rename_i hs
      rw [if_pos hs] at h
      exact charAt_beforeSpaces src count (position - 1) (by omega) (by omega)
    · assumption

/-! ### A trimmed range -/

/-- Trimming stays in the range and leaves something of it. -/
theorem trim_bounds (src : Source) (h : s.start < s.stop) :
    s.start ≤ (src.trim s).start ∧ (src.trim s).start < (src.trim s).stop ∧
      (src.trim s).stop ≤ s.stop := by
  have hl := src.afterSpaces_bounds (s.stop - (s.start + 1)) s.start
  have hr := src.beforeSpaces_bounds (s.stop - (src.trimLeft s + 1)) s.stop
  simp only [trim, trimRight]
  simp only [trimLeft] at hr ⊢
  omega

theorem trim_inside (src : Source) (h : s.start < s.stop) : (src.trim s).Inside s :=
  ⟨(src.trim_bounds h).1, (src.trim_bounds h).2.2⟩

theorem trim_length_le (src : Source) (h : s.start < s.stop) : (src.trim s).length ≤ s.length := by
  have := src.trim_bounds h
  simp only [Span.length]
  omega

theorem charAt_before_trim (src : Source) {p : Nat} (hp : s.start ≤ p) (hlt : p < (src.trim s).start) :
    src.charAt p = some ' ' :=
  src.charAt_of_lt_afterSpaces _ _ p hp hlt

theorem charAt_after_trim (src : Source) {p : Nat} (hp : p < s.stop) (hle : (src.trim s).stop ≤ p) :
    src.charAt p = some ' ' :=
  src.charAt_of_beforeSpaces_le _ _ p hp hle

/-- A trimmed range of more than one character begins with no space. -/
theorem charAt_trim_start (src : Source) (h : 1 < (src.trim s).length) :
    src.charAt (src.trim s).start ≠ some ' ' := by
  have hr := src.beforeSpaces_bounds (s.stop - (src.trimLeft s + 1)) s.stop
  simp only [Span.length, trim, trimRight] at h
  simp only [trim, trimLeft] at h hr ⊢
  exact src.charAt_afterSpaces _ _ (by omega)

/-- A trimmed range of more than one character ends with no space. -/
theorem charAt_trim_stop (src : Source) (h : 1 < (src.trim s).length) :
    src.charAt ((src.trim s).stop - 1) ≠ some ' ' := by
  have hr := src.beforeSpaces_bounds (s.stop - (src.trimLeft s + 1)) s.stop
  simp only [Span.length, trim, trimRight] at h
  simp only [trim, trimRight]
  exact src.charAt_beforeSpaces _ _ (by omega) (by omega)

/-! ### The same characters further on -/

/-- `src'` holds the characters of a range of `src`, `k` places further on. -/
structure Window (src src' : Source) (k : Nat) (s : Span) : Prop where
  stop_le : s.stop ≤ src.size
  stop_le' : s.stop + k ≤ src'.size
  charAt : ∀ p, s.start ≤ p → p < s.stop → src'.charAt (p + k) = src.charAt p

theorem Window.refl (h : s.stop ≤ src.size) : Window src src 0 s := ⟨h, h, fun _ _ _ => rfl⟩

theorem Window.mono {r : Span} (w : Window src src' k s) (h : r.Inside s) : Window src src' k r where
  stop_le := Nat.le_trans h.2 w.stop_le
  stop_le' := Nat.le_trans (Nat.add_le_add_right h.2 k) w.stop_le'
  charAt p hp hlt := w.charAt p (Nat.le_trans h.1 hp) (Nat.lt_of_lt_of_le hlt h.2)

theorem afterSpaces_shift : ∀ count position : Nat,
    (∀ p, position ≤ p → p < position + count → src'.charAt (p + k) = src.charAt p) →
      src'.afterSpaces count (position + k) = src.afterSpaces count position + k
  | 0, _, _ => rfl
  | count + 1, position, h => by
    unfold afterSpaces
    rw [h position (Nat.le_refl _) (by omega)]
    split
    · rw [Nat.add_right_comm]
      exact afterSpaces_shift count (position + 1) fun p hp hlt => h p (by omega) (by omega)
    · rfl

theorem beforeSpaces_shift : ∀ count position : Nat, count < position →
    (∀ p, position ≤ p + count → p < position → src'.charAt (p + k) = src.charAt p) →
      src'.beforeSpaces count (position + k) = src.beforeSpaces count position + k
  | 0, _, _, _ => rfl
  | count + 1, position, hc, h => by
    unfold beforeSpaces
    rw [show position + k - 1 = position - 1 + k by omega, h (position - 1) (by omega) (by omega)]
    split
    · exact beforeSpaces_shift count (position - 1) (by omega) fun p hp hlt => h p (by omega) (by omega)
    · rfl

theorem Window.trimLeft (w : Window src src' k s) : src'.trimLeft (s.shift k) = src.trimLeft s + k := by
  simp only [Source.trimLeft, Span.shift, show s.stop + k - (s.start + k + 1) = s.stop - (s.start + 1) by omega]
  exact afterSpaces_shift _ _ fun p hp hlt => w.charAt p hp (by omega)

theorem Window.trim (w : Window src src' k s) (h : s.start < s.stop) :
    src'.trim (s.shift k) = (src.trim s).shift k := by
  have hl := src.afterSpaces_bounds (s.stop - (s.start + 1)) s.start
  simp only [Source.trim, w.trimLeft, Source.trimRight]
  simp only [Span.shift, Span.mk.injEq, true_and]
  rw [show s.stop + k - (src.trimLeft s + k + 1) = s.stop - (src.trimLeft s + 1) by omega]
  simp only [Source.trimLeft]
  exact beforeSpaces_shift _ _ (by omega) fun p hp hlt => w.charAt p (by omega) hlt

theorem Window.first (w : Window src src' k s) : src'.first (s.shift k) = src.first s := by
  unfold Source.first
  by_cases h : s.start < s.stop
  · have h' : (s.shift k).start < (s.shift k).stop := Nat.add_lt_add_right h k
    rw [if_pos h, if_pos h']
    exact w.charAt s.start (Nat.le_refl _) h
  · have h' : ¬ (s.shift k).start < (s.shift k).stop := fun hlt => h (Nat.lt_of_add_lt_add_right hlt)
    rw [if_neg h, if_neg h']

theorem Window.charAt_last (w : Window src src' k s) (h : s.start < s.stop) :
    src'.charAt ((s.shift k).stop - 1) = src.charAt (s.stop - 1) := by
  rw [← w.charAt (s.stop - 1) (by omega) (by omega)]
  simp only [Span.shift]
  congr 1
  omega

theorem Window.last (w : Window src src' k s) : src'.last (s.shift k) = src.last s := by
  unfold Source.last
  by_cases h : s.start < s.stop
  · have h' : (s.shift k).start < (s.shift k).stop := Nat.add_lt_add_right h k
    rw [if_pos h, if_pos h']
    exact w.charAt_last h
  · have h' : ¬ (s.shift k).start < (s.shift k).stop := fun hlt => h (Nat.lt_of_add_lt_add_right hlt)
    rw [if_neg h, if_neg h']

/-! ### Slices -/

theorem charAt_eq (src : Source) (p : Nat) : src.charAt p = src.chars.toList[p]? := by
  simp [charAt]

theorem slice_eq (src : Source) (s : Span) :
    src.slice s = (src.chars.toList.drop s.start).take (s.stop - s.start) := by
  simp [slice]

theorem getElem?_slice (src : Source) (s : Span) (i : Nat) :
    (src.slice s)[i]? = if i < s.stop - s.start then src.charAt (s.start + i) else none := by
  rw [slice_eq, List.getElem?_take, List.getElem?_drop, charAt_eq]

theorem length_slice (src : Source) (h : s.stop ≤ src.size) : (src.slice s).length = s.length := by
  have hsize : src.chars.toList.length = src.size := rfl
  rw [slice_eq, List.length_take, List.length_drop, Span.length]
  omega

theorem mem_slice {src : Source} {c : Char} (h : c ∈ src.slice s) :
    ∃ p, s.start ≤ p ∧ p < s.stop ∧ src.charAt p = some c := by
  obtain ⟨i, hi⟩ := List.mem_iff_getElem?.mp h
  rw [getElem?_slice] at hi
  split at hi
  · exact ⟨s.start + i, by omega, by omega, hi⟩
  · cases hi

theorem slice_of_le (src : Source) (h : s.stop ≤ s.start) : src.slice s = [] := by
  rw [slice_eq, Nat.sub_eq_zero_of_le h, List.take_zero]

theorem slice_whole (text : String) : (ofString text).slice (ofString text).whole = text.toList := by
  have hsize : (ofString text).size = text.toList.length := rfl
  rw [slice_eq, whole, List.drop_zero, hsize, Nat.sub_zero]
  exact List.take_length

theorem slice_append (src : Source) {a b c : Nat} (hab : a ≤ b) (hbc : b ≤ c) :
    src.slice ⟨a, c⟩ = src.slice ⟨a, b⟩ ++ src.slice ⟨b, c⟩ := by
  simp only [slice_eq]
  rw [show c - a = b - a + (c - b) by omega, List.take_add, List.drop_drop, Nat.add_sub_cancel' hab]

theorem slice_cons (src : Source) {a b : Nat} {c : Char} (h : a < b) (hc : src.charAt a = some c) :
    src.slice ⟨a, b⟩ = c :: src.slice ⟨a + 1, b⟩ := by
  have hone : src.slice ⟨a, a + 1⟩ = [c] := by
    apply List.ext_getElem?
    intro i
    rw [getElem?_slice]
    cases i with
    | zero => simpa using hc
    | succ i => simp
  rw [slice_append src (Nat.le_succ a) h, hone, List.singleton_append]

theorem slice_snoc (src : Source) {a b : Nat} {c : Char} (h : a < b) (hc : src.charAt (b - 1) = some c) :
    src.slice ⟨a, b⟩ = src.slice ⟨a, b - 1⟩ ++ [c] := by
  have hb : b - 1 + 1 = b := by omega
  rw [slice_append src (Nat.le_sub_one_of_lt h) (Nat.sub_le b 1), slice_cons src (by omega) hc, hb,
    src.slice_of_le (s := ⟨b, b⟩) (Nat.le_refl b)]

/-- A range that begins with one character and ends with another. -/
theorem slice_enclosed (src : Source) {a b : Char} (h : 2 ≤ s.length) (ha : src.charAt s.start = some a)
    (hb : src.charAt (s.stop - 1) = some b) : src.slice s = a :: src.slice s.inner ++ [b] := by
  simp only [Span.length] at h
  rw [show src.slice s = src.slice ⟨s.start, s.stop⟩ from rfl, slice_cons src (by omega) ha,
    slice_snoc src (by omega) hb]
  rfl

theorem Window.slice (w : Window src src' k s) : src'.slice (s.shift k) = src.slice s := by
  apply List.ext_getElem?
  intro i
  have hlen : (s.shift k).stop - (s.shift k).start = s.stop - s.start := by
    simp only [Span.shift]
    omega
  rw [getElem?_slice, getElem?_slice, hlen]
  by_cases h : i < s.stop - s.start
  · rw [if_pos h, if_pos h, ← w.charAt (s.start + i) (by omega) (by omega), Span.shift, Nat.add_right_comm]
  · rw [if_neg h, if_neg h]

/-- A range is its trimmed range between spaces. -/
theorem slice_trim (src : Source) (h : s.start < s.stop) :
    ∃ before after, (∀ c ∈ before, c = ' ') ∧ (∀ c ∈ after, c = ' ') ∧
      src.slice s = before ++ src.slice (src.trim s) ++ after := by
  obtain ⟨h1, h2, h3⟩ := src.trim_bounds h
  refine ⟨src.slice ⟨s.start, (src.trim s).start⟩, src.slice ⟨(src.trim s).stop, s.stop⟩, ?_, ?_, ?_⟩
  · intro c hc
    obtain ⟨p, hp, hlt, he⟩ := mem_slice hc
    rw [src.charAt_before_trim (s := s) hp hlt] at he
    exact (Option.some.inj he).symm
  · intro c hc
    obtain ⟨p, hp, hlt, he⟩ := mem_slice hc
    rw [src.charAt_after_trim (s := s) hlt hp] at he
    exact (Option.some.inj he).symm
  · rw [← slice_append src h1 (Nat.le_of_lt h2), ← slice_append src (Nat.le_trans h1 (Nat.le_of_lt h2)) h3]

/-! ### Searching -/

theorem matchesAt_shift : ∀ (needle : List Char) (position : Nat),
    (∀ p, position ≤ p → p < position + needle.length → src'.charAt (p + k) = src.charAt p) →
      src'.matchesAt (position + k) needle = src.matchesAt position needle
  | [], _, _ => rfl
  | c :: needle, position, h => by
    simp only [List.length_cons] at h
    rw [matchesAt_cons, matchesAt_cons, h position (Nat.le_refl _) (by omega), Nat.add_right_comm,
      matchesAt_shift needle (position + 1) fun p hp hlt => h p (by omega) (by omega)]

/-- A text reads a needle at a position if what is left there begins with it. -/
theorem matchesAt_iff (src : Source) : ∀ (needle : List Char) (position : Nat),
    src.matchesAt position needle = true ↔ needle <+: src.chars.toList.drop position
  | [], _ => by simp [matchesAt]
  | c :: needle, position => by
    rw [matchesAt_cons, Bool.and_eq_true, matchesAt_iff src needle, beq_iff_eq, charAt_eq]
    cases hd : src.chars.toList.drop position with
    | nil =>
      have : src.chars.toList[position]? = none := by
        rw [List.getElem?_eq_none_iff]
        exact List.drop_eq_nil_iff.mp hd
      simp [this]
    | cons x rest =>
      have hx : src.chars.toList[position]? = some x := by
        rw [← Nat.add_zero position, ← List.getElem?_drop, hd, List.getElem?_cons_zero]
      have hrest : src.chars.toList.drop (position + 1) = rest := by
        rw [← List.drop_drop, hd, List.drop_one, List.tail_cons]
      rw [hx, hrest, List.cons_prefix_cons, Option.some.injEq, eq_comm]

/-- A range is cut in three at a place where a needle stands in it. -/
theorem slice_cut (src : Source) {needle : List Char} {p : Nat} (hp : s.start ≤ p)
    (hstop : p + needle.length ≤ s.stop) (h : src.matchesAt p needle = true) :
    src.slice s = src.slice ⟨s.start, p⟩ ++ (needle ++ src.slice ⟨p + needle.length, s.stop⟩) := by
  have hneedle : src.slice ⟨p, p + needle.length⟩ = needle := by
    rw [slice_eq, Nat.add_sub_cancel_left]
    exact (List.prefix_iff_eq_take.mp ((src.matchesAt_iff needle p).mp h)).symm
  rw [show src.slice s = src.slice ⟨s.start, s.stop⟩ from rfl, slice_append src hp (by omega),
    slice_append src (Nat.le_add_right p needle.length) hstop, hneedle]

/-- A range is cut in three at each place that a search finds in a part of it. -/
theorem slice_of_mem_findAll {r : Span} {needle : List Char} {p : Nat} (hr : r.Inside s)
    (h : p ∈ src.findAll r needle) :
    src.slice s = src.slice ⟨s.start, p⟩ ++ (needle ++ src.slice ⟨p + needle.length, s.stop⟩) := by
  have hn : needle ≠ [] := by
    rintro rfl
    simp [findAll] at h
  obtain ⟨h1, h2, h3⟩ := (mem_findAll hn).mp h
  have := hr.1
  have := hr.2
  exact src.slice_cut (by omega) (by omega) h3

theorem charAt_of_findChar {c : Char} {p : Nat} (h : src.findChar s c = some p) : src.charAt p = some c := by
  simpa using List.find?_some h

/-- A character that is found lies in the range. -/
theorem findChar_bounds (src : Source) {c : Char} {p : Nat} (h : src.findChar s c = some p) :
    s.start ≤ p ∧ p < s.stop := by
  have := List.mem_range'_1.mp (List.mem_of_find?_eq_some h)
  omega

theorem range_shift (start count k : Nat) :
    List.range' (start + k) count = (List.range' start count).map (· + k) := by
  rw [Nat.add_comm start k, ← List.map_add_range']
  exact List.map_congr_left fun p _ => Nat.add_comm k p

theorem Window.findAll (w : Window src src' k s) (needle : List Char) :
    src'.findAll (s.shift k) needle = (src.findAll s needle).map (· + k) := by
  have h1 := w.stop_le
  have h2 := w.stop_le'
  unfold Source.findAll
  split
  · rfl
  · have hcount : min (s.shift k).stop src'.size + 1 - ((s.shift k).start + needle.length) =
        min s.stop src.size + 1 - (s.start + needle.length) := by
      simp only [Span.shift]
      omega
    rw [hcount, show (s.shift k).start = s.start + k from rfl, range_shift, List.filter_map]
    congr 1
    refine List.filter_congr fun p hp => ?_
    rw [List.mem_range'_1] at hp
    exact matchesAt_shift needle p fun q hq hlt => w.charAt q (by omega) (by omega)

/-- A search gives its positions in order. -/
theorem findAll_sorted (src : Source) (s : Span) (needle : List Char) :
    (src.findAll s needle).Pairwise (· < ·) := by
  unfold findAll
  split
  · exact List.Pairwise.nil
  · exact List.Pairwise.filter _ (List.pairwise_lt_range' 1)

/-- What a search finds lies in the range. -/
theorem findAll_bounds {p : Nat} {needle : List Char} (h : p ∈ src.findAll s needle) :
    s.start ≤ p ∧ p + needle.length ≤ s.stop := by
  by_cases hn : needle = []
  · simp [findAll, hn] at h
  · obtain ⟨h1, h2, -⟩ := (mem_findAll hn).mp h
    omega

theorem Window.findChar (w : Window src src' k s) (c : Char) :
    src'.findChar (s.shift k) c = (src.findChar s c).map (· + k) := by
  have h1 := w.stop_le
  have h2 := w.stop_le'
  have hcount : min (s.shift k).stop src'.size - (s.shift k).start = min s.stop src.size - s.start := by
    simp only [Span.shift]
    omega
  unfold Source.findChar
  rw [hcount, show (s.shift k).start = s.start + k from rfl, range_shift, List.find?_map]
  congr 1
  rw [← List.head?_filter, ← List.head?_filter]
  congr 1
  refine List.filter_congr fun p hp => ?_
  rw [List.mem_range'_1] at hp
  rw [Function.comp_apply, w.charAt p (by omega) (by omega)]

end Source

end PathQuery
