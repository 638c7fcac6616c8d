/-
# Ranges of a text

A path expression is read by cutting its text into ranges and asking what each
range can be. `Source` holds the characters once; a `Span` names a half-open
range `[start, stop)` of them by position. Nothing here fails: a position past
the end has no character, and a range past the end is cut off there. Trimming
takes spaces off both ends of a range but never the last character of it, so a
range that is not empty stays so.

Key definitions: `Source`, `Span`, `Source.charAt`, `Source.slice`,
`Source.findAll`, `Source.findChar`, `Source.trim`.
Key theorems: `Source.mem_findAll`, `Source.matchesAt_cons`.
-/

namespace PathQuery

/-- A half-open range of positions. -/
structure Span where
  start : Nat
  stop : Nat
deriving DecidableEq, Repr, Inhabited

namespace Span

/-- The number of positions in the range. -/
def length (s : Span) : Nat := s.stop - s.start

/-- The range without its first and its last position. -/
def inner (s : Span) : Span := ⟨s.start + 1, s.stop - 1⟩

end Span

/-- A text, held as its characters. -/
structure Source where
  chars : Array Char

namespace Source

/-- The characters of a string. -/
def ofString (text : String) : Source := ⟨text.toList.toArray⟩

/-- The number of characters. -/
def size (src : Source) : Nat := src.chars.size

/-- The range of the whole text. -/
def whole (src : Source) : Span := ⟨0, src.size⟩

/-! ### Characters and slices -/

/-- The character at a position, if the text reaches that far. -/
def charAt (src : Source) (position : Nat) : Option Char := src.chars[position]?

/-- The first character of a range that is not empty. -/
def first (src : Source) (s : Span) : Option Char :=
  if s.start < s.stop then src.charAt s.start else none

/-- The last character of a range that is not empty. -/
def last (src : Source) (s : Span) : Option Char :=
  if s.start < s.stop then src.charAt (s.stop - 1) else none

/-- The characters of a range, cut off at the end of the text. -/
def slice (src : Source) (s : Span) : List Char := (src.chars.extract s.start s.stop).toList

/-- The text of a range. -/
def text (src : Source) (s : Span) : String := String.ofList (src.slice s)

/-! ### Searching -/

/-- Whether the text reads `needle` from `position` on. -/
def matchesAt (src : Source) : Nat → List Char → Bool
  | _, [] => true
  | position, c :: needle => src.charAt position == some c && src.matchesAt (position + 1) needle

/-- Every position in the range from which `needle` can be read without leaving
the range, left to right. Occurrences may overlap. The empty needle is nowhere. -/
def findAll (src : Source) (s : Span) (needle : List Char) : List Nat :=
  if needle.isEmpty then []
  else
    (List.range' s.start (min s.stop src.size + 1 - (s.start + needle.length))).filter
      (src.matchesAt · needle)

/-- The first position of a character in the range. -/
def findChar (src : Source) (s : Span) (c : Char) : Option Nat :=
  (List.range' s.start (min s.stop src.size - s.start)).find? (src.charAt · == some c)

/-! ### Trimming -/

/-- The position after at most `count` spaces from `position` on. -/
def afterSpaces (src : Source) : (count position : Nat) → Nat
  | 0, position => position
  | count + 1, position =>
    if src.charAt position = some ' ' then src.afterSpaces count (position + 1) else position

/-- The position before at most `count` spaces that end at `position`. -/
def beforeSpaces (src : Source) : (count position : Nat) → Nat
  | 0, position => position
  | count + 1, position =>
    if src.charAt (position - 1) = some ' ' then src.beforeSpaces count (position - 1) else position

/-- The start of the range after its leading spaces. It stays before the stop of
a range that is not empty. -/
def trimLeft (src : Source) (s : Span) : Nat := src.afterSpaces (s.stop - (s.start + 1)) s.start

/-- The stop of the range before its trailing spaces. It stays after the start of
a range that is not empty. -/
def trimRight (src : Source) (s : Span) : Nat := src.beforeSpaces (s.stop - (s.start + 1)) s.stop

/-- The range without the spaces at its ends. -/
def trim (src : Source) (s : Span) : Span :=
  let start := src.trimLeft s
  ⟨start, src.trimRight ⟨start, s.stop⟩⟩

/-! ### What a search finds -/

theorem matchesAt_cons (src : Source) (position : Nat) (c : Char) (needle : List Char) :
    src.matchesAt position (c :: needle) =
      (src.charAt position == some c && src.matchesAt (position + 1) needle) := rfl

/-- A search finds exactly the positions at which the needle stands inside the
range and the text. -/
theorem mem_findAll {src : Source} {s : Span} {needle : List Char} {p : Nat} (h : needle ≠ []) :
    p ∈ src.findAll s needle ↔
      s.start ≤ p ∧ p + needle.length ≤ min s.stop src.size ∧ src.matchesAt p needle = true := by
  have hpos : 0 < needle.length := List.length_pos_iff.mpr h
  simp only [findAll, List.isEmpty_iff, h, if_false, List.mem_filter, List.mem_range'_1, and_assoc.symm]
  refine and_congr_left fun _ => ?_
  omega

end Source

end PathQuery
