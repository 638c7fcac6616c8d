/-
# Searches that check their positions

On a fixed word a difference below zero, a sum past the last number and an access past the end of
an array stop a program. The functions of a text never meet one of these: a `Fault` is what would
stop them, and each is written once more with a check at every difference, sum and access
(`Checked`). On a range that the text holds, no check fails and the answer is the same.

A position is at most the size of the text, and what is added to one is small, so a sum is checked
against five positions past the end: no text is so long that this is out of reach.

Key definitions: `Fault`, `Source.Holds`, `Checked.difference`, `Checked.sum`, `Checked.item`, `Checked.part`.
Key theorems: `Checked.trim_ok`, `Checked.findAll_ok`, `Checked.findChar_ok`, `Checked.slice_ok`.
-/
import PathQuery.Proofs.Window

namespace PathQuery

/-- What would stop a reading. -/
inductive Fault
  /-- A range with its stop before its start, or past the end of the text. -/
  | range (s : Span)
  /-- A larger number taken from a smaller one. -/
  | difference (a b : Nat)
  /-- A sum out of reach. -/
  | sum (a b : Nat)
  /-- An access past the end. -/
  | index (i : Nat)
  /-- A part that is not inside what it is a part of. -/
  | part (i j : Nat)
  /-- More levels of nesting than were counted. -/
  | depth
deriving DecidableEq, Repr

/-- Whether a text holds a range. -/
def Source.Holds (src : Source) (s : Span) : Prop := s.start ≤ s.stop ∧ s.stop ≤ src.size

instance (src : Source) (s : Span) : Decidable (src.Holds s) := inferInstanceAs (Decidable (_ ∧ _))

namespace Checked

variable {α : Type} {src : Source} {s : Span}

/-! ### What is checked -/

/-- A range that the text holds. -/
def within (src : Source) (s : Span) : Except Fault Unit :=
  if src.Holds s then .ok () else .error (.range s)

/-- The difference of two numbers. -/
def difference (a b : Nat) : Except Fault Nat := if b ≤ a then .ok (a - b) else .error (.difference a b)

/-- The sum of two numbers. -/
def sum (src : Source) (a b : Nat) : Except Fault Nat :=
  if a + b ≤ src.size + 5 then .ok (a + b) else .error (.sum a b)

/-- The item at an index. -/
def item (items : List α) (i : Nat) : Except Fault α :=
  match items[i]? with
  | some a => .ok a
  | none => .error (.index i)

/-- The items from an index up to another. -/
def part (items : List α) (i j : Nat) : Except Fault (List α) :=
  if i ≤ j ∧ j ≤ items.length then .ok ((items.drop i).take (j - i)) else .error (.part i j)

theorem within_ok (hs : src.Holds s) : within src s = .ok () := if_pos hs

theorem difference_ok {a b : Nat} (h : b ≤ a) : difference a b = .ok (a - b) := if_pos h

theorem sum_ok {a b : Nat} (h : a + b ≤ src.size + 5) : sum src a b = .ok (a + b) := if_pos h

theorem item_ok {items : List α} {i : Nat} {a : α} (h : items[i]? = some a) : item items i = .ok a := by
  unfold item
  rw [h]

theorem part_ok {items : List α} {i j : Nat} (hij : i ≤ j) (hj : j ≤ items.length) :
    part items i j = .ok ((items.drop i).take (j - i)) :=
  if_pos ⟨hij, hj⟩

theorem ok_bind {β : Type} (a : α) (f : α → Except Fault β) : (Except.ok a >>= f) = f a := rfl

/-! ### Characters and slices -/

/-- The last character of a range that is not empty. -/
def last (src : Source) (s : Span) : Except Fault (Option Char) :=
  if s.start < s.stop then do
    let p ← difference s.stop 1
    pure (src.charAt p)
  else pure none

/-- The characters of a range, cut off at the end of the text. -/
def slice (src : Source) (s : Span) : Except Fault (List Char) :=
  let stop := min s.stop src.size
  if stop ≤ s.start then pure [] else part src.chars.toList s.start stop

/-- A range that is not empty has a last position. -/
theorem last_ok (src : Source) (s : Span) : last src s = .ok (src.last s) := by
  unfold last Source.last
  by_cases h : s.start < s.stop
  · rw [if_pos h, if_pos h, difference_ok (by omega)]
    rfl
  · rw [if_neg h, if_neg h]
    rfl

/-- A slice is cut off before it is taken. -/
theorem slice_ok (src : Source) (s : Span) : slice src s = .ok (src.slice s) := by
  have hsize : src.chars.toList.length = src.size := rfl
  have hcut : src.slice s = (src.chars.toList.drop s.start).take (min s.stop src.size - s.start) := by
    rw [src.slice_eq, List.take_eq_take_iff, List.length_drop, hsize]
    omega
  unfold slice
  by_cases h : min s.stop src.size ≤ s.start
  · have hempty : min s.stop src.size - s.start = 0 := Nat.sub_eq_zero_of_le h
    simp only [if_pos h]
    rw [hcut, hempty, List.take_zero]
    rfl
  · simp only [if_neg h]
    rw [part_ok (by omega) (by omega), hcut]

/-! ### Trimming -/

/-- The start of a range after its leading spaces. -/
def trimLeft (src : Source) (start stop : Nat) : Except Fault Nat := do
  let _ ← sum src start 1
  if start + 1 < stop ∧ src.charAt start = some ' ' then trimLeft src (start + 1) stop else pure start
termination_by stop - start

/-- The stop of a range before its trailing spaces. -/
def trimRight (src : Source) (start stop : Nat) : Except Fault Nat := do
  let _ ← sum src start 1
  if start + 1 < stop then do
    let p ← difference stop 1
    if src.charAt p = some ' ' then trimRight src start (stop - 1) else pure stop
  else pure stop
termination_by stop - start

/-- The range without the spaces at its ends. -/
def trim (src : Source) (s : Span) : Except Fault Span := do
  let start ← trimLeft src s.start s.stop
  let stop ← trimRight src start s.stop
  pure ⟨start, stop⟩

/-- Leading spaces are looked for inside the text. -/
theorem trimLeft_ok {start stop : Nat} (hstart : start ≤ src.size) (hstop : stop ≤ src.size) :
    trimLeft src start stop = .ok (src.trimLeft ⟨start, stop⟩) := by
  show _ = Except.ok (src.afterSpaces (stop - (start + 1)) start)
  generalize hcount : stop - (start + 1) = count
  induction count generalizing start with
  | zero =>
    have hend : ¬ start + 1 < stop := by omega
    unfold trimLeft Source.afterSpaces
    rw [sum_ok (by omega), ok_bind, if_neg fun h => hend h.1]
    rfl
  | succ count ih =>
    unfold trimLeft Source.afterSpaces
    rw [sum_ok (by omega), ok_bind]
    by_cases hc : src.charAt start = some ' '
    · rw [if_pos ⟨by omega, hc⟩, if_pos hc]
      exact ih (by omega) (by omega)
    · rw [if_neg fun h => hc h.2, if_neg hc]
      rfl

/-- Trailing spaces are looked for inside the text. -/
theorem trimRight_ok {start stop : Nat} (hstart : start ≤ src.size) :
    trimRight src start stop = .ok (src.trimRight ⟨start, stop⟩) := by
  show _ = Except.ok (src.beforeSpaces (stop - (start + 1)) stop)
  generalize hcount : stop - (start + 1) = count
  induction count generalizing stop with
  | zero =>
    have hend : ¬ start + 1 < stop := by omega
    unfold trimRight Source.beforeSpaces
    rw [sum_ok (by omega), ok_bind, if_neg hend]
    rfl
  | succ count ih =>
    unfold trimRight Source.beforeSpaces
    rw [sum_ok (by omega), ok_bind, if_pos (by omega), difference_ok (by omega), ok_bind]
    by_cases hc : src.charAt (stop - 1) = some ' '
    · rw [if_pos hc, if_pos hc]
      exact ih (by omega)
    · rw [if_neg hc, if_neg hc]
      rfl

/-- A range that is not empty is trimmed inside the text. -/
theorem trim_ok (hs : s.start < s.stop) (hstop : s.stop ≤ src.size) : trim src s = .ok (src.trim s) := by
  have hbounds := src.trim_bounds hs
  have hleft : (src.trim s).start = src.trimLeft ⟨s.start, s.stop⟩ := rfl
  unfold trim
  rw [trimLeft_ok (by omega) hstop, ok_bind, trimRight_ok (by omega)]
  rfl

/-! ### Searching -/

/-- The positions of a needle, at so many places from a position on. -/
def places (src : Source) (needle : List Char) : (count position : Nat) → Except Fault (List Nat)
  | 0, _ => pure []
  | count + 1, position => do
    let stop ← sum src position needle.length
    let found ← part src.chars.toList position stop
    let rest ← places src needle count (position + 1)
    pure (if found = needle then position :: rest else rest)

/-- Every position in the range from which `needle` can be read without leaving the range. -/
def findAll (src : Source) (s : Span) (needle : List Char) : Except Fault (List Nat) :=
  let stop := min s.stop src.size
  if needle.isEmpty ∨ stop ≤ s.start then pure []
  else do
    let length ← difference stop s.start
    if length < needle.length then pure []
    else do
      let final ← difference stop needle.length
      places src needle (final + 1 - s.start) s.start

/-- The first position of a character, at so many places from a position on. -/
def place (src : Source) (c : Char) : (count position : Nat) → Except Fault (Option Nat)
  | 0, _ => pure none
  | count + 1, position => do
    let found ← item src.chars.toList position
    if found = c then pure (some position) else place src c count (position + 1)

/-- The first position of a character in the range. -/
def findChar (src : Source) (s : Span) (c : Char) : Except Fault (Option Nat) :=
  place src c (min s.stop src.size - s.start) s.start

theorem places_ok {needle : List Char} : ∀ {count position : Nat}, position + count + needle.length ≤ src.size + 1 →
    places src needle count position = .ok ((List.range' position count).filter (src.matchesAt · needle))
  | 0, _, _ => rfl
  | count + 1, position, hle => by
    have hsize : src.chars.toList.length = src.size := rfl
    have hfound : (src.chars.toList.drop position).take (position + needle.length - position) = needle ↔
        src.matchesAt position needle = true := by
      rw [src.matchesAt_iff, List.prefix_iff_eq_take, Nat.add_sub_cancel_left, eq_comm]
    unfold places
    rw [sum_ok (by omega), ok_bind, part_ok (by omega) (by omega), ok_bind, places_ok (by omega), ok_bind,
      List.range'_succ, List.filter_cons]
    simp only [hfound]
    rfl

/-- The places that are looked at all end inside the text. -/
theorem findAll_ok (src : Source) (s : Span) (needle : List Char) :
    findAll src s needle = .ok (src.findAll s needle) := by
  unfold findAll Source.findAll
  by_cases hneedle : needle.isEmpty
  · simp only [hneedle, true_or, if_true]
    rfl
  have hpos : 0 < needle.length := List.length_pos_iff.mpr fun h => hneedle (by rw [h]; rfl)
  by_cases hstop : min s.stop src.size ≤ s.start
  · have hnone : min s.stop src.size + 1 - (s.start + needle.length) = 0 := by omega
    simp only [hstop, or_true, if_true, hneedle, hnone]
    rfl
  simp only [hneedle, hstop, Bool.false_eq_true, or_self, if_false]
  rw [difference_ok (by omega), ok_bind]
  by_cases hlength : min s.stop src.size - s.start < needle.length
  · have hnone : min s.stop src.size + 1 - (s.start + needle.length) = 0 := by omega
    rw [if_pos hlength, hnone]
    rfl
  · have hcount : min s.stop src.size - needle.length + 1 - s.start =
        min s.stop src.size + 1 - (s.start + needle.length) := by
      omega
    rw [if_neg hlength, difference_ok (by omega), ok_bind, hcount]
    exact places_ok (by omega)

theorem place_ok {c : Char} : ∀ {count position : Nat}, position + count ≤ src.size →
    place src c count position = .ok ((List.range' position count).find? (src.charAt · == some c))
  | 0, _, _ => rfl
  | count + 1, position, hle => by
    have hsize : src.chars.toList.length = src.size := rfl
    obtain ⟨x, hx⟩ : ∃ x, src.chars.toList[position]? = some x :=
      ⟨_, List.getElem?_eq_getElem (by omega)⟩
    unfold place
    rw [item_ok hx, ok_bind, List.range'_succ, List.find?_cons, src.charAt_eq, hx]
    by_cases hc : x = c
    · rw [if_pos hc, hc, beq_self_eq_true]
      rfl
    · have hne : (some x == some c) = false := by simpa using hc
      rw [if_neg hc, hne]
      exact place_ok (by omega)

/-- The characters that are looked at are all inside the text. -/
theorem findChar_ok (src : Source) (s : Span) (c : Char) : findChar src s c = .ok (src.findChar s c) := by
  unfold findChar Source.findChar
  by_cases h : s.start ≤ min s.stop src.size
  · exact place_ok (by omega)
  · have hnone : min s.stop src.size - s.start = 0 := by omega
    rw [hnone]
    rfl

end Checked

end PathQuery
