/-
# The report of a failure

A failure is a tree of all that was tried. The place of a failure in the tree is told by the numbers of
the alternatives on the way to it from the top, and its level is how many these are (`Failure.at?`).
The failures at all places in order, each before what was tried for it and each alternative before the
next, are the causes (`Failure.map_snd_placed`).

The report has two lines for each cause, in this order: one names the rule and the position, one gives
the words, and both stand as far to the right as the level of the cause says
(`Failure.diagnostic_lines`).

Key definitions: `HasLines`, `Failure.at?`, `Failure.placed`, `Failure.entry`.
Key theorems: `Failure.mem_placed`, `Failure.placed_sorted`, `Failure.diagnosticAt_eq`,
`Failure.diagnostic_lines`.
-/
import PathQuery.Proofs.Surroundings

namespace PathQuery

/-- A text of lines, each with a line feed at its end. -/
def ofLines (lines : List String) : String := String.join (lines.map (· ++ "\n"))

theorem ofLines_append (lines more : List String) : ofLines (lines ++ more) = ofLines lines ++ ofLines more := by
  rw [ofLines, List.map_append, String.join_append]
  rfl

/-- A text that is made of these lines: a line feed ends each of them and stands nowhere else. -/
structure HasLines (text : String) (lines : List String) : Prop where
  text_eq : text = ofLines lines
  single : ∀ line ∈ lines, '\n' ∉ line.toList

namespace Failure

/-! ### Places -/

/-- The failure at a place of a tree. The place is told by the numbers of the alternatives on the way,
counted from 0. -/
def at? : Failure → List Nat → Option Failure
  | f, [] => some f
  | f, i :: place => f.alternatives[i]?.bind fun g => g.at? place

mutual

/-- The failures of a tree with their places, each before what was tried for it. -/
def placed : Failure → List (List Nat × Failure)
  | ⟨rule, reason, position, alternatives⟩ =>
    ([], ⟨rule, reason, position, alternatives⟩) :: placedFrom 0 alternatives

/-- The same for alternatives that are numbered from `i` on. -/
def placedFrom (i : Nat) : List Failure → List (List Nat × Failure)
  | [] => []
  | f :: rest => (placed f).map (fun x => (i :: x.1, x.2)) ++ placedFrom (i + 1) rest

end

mutual

/-- **The tree has these failures at these places**, and at no others. -/
theorem mem_placed {place : List Nat} {g : Failure} : ∀ f : Failure, (place, g) ∈ f.placed ↔ f.at? place = some g
  | ⟨rule, reason, position, alternatives⟩ => by
    rw [placed, List.mem_cons, mem_placedFrom 0 alternatives]
    cases place with
    | nil => simp [at?, eq_comm]
    | cons i place => simp [at?]

/-- The same for alternatives that are numbered from `i` on. -/
theorem mem_placedFrom {place : List Nat} {g : Failure} (i : Nat) : ∀ fs : List Failure,
    (place, g) ∈ placedFrom i fs ↔ ∃ j rest, place = (i + j) :: rest ∧ fs[j]?.bind (·.at? rest) = some g
  | [] => by simp [placedFrom]
  | f :: fs => by
    rw [placedFrom, List.mem_append, List.mem_map, mem_placedFrom (i + 1) fs]
    constructor
    · rintro (⟨⟨rest, h⟩, hmem, heq⟩ | ⟨j, rest, rfl, h⟩)
      · obtain ⟨rfl, rfl⟩ := Prod.mk.inj heq
        exact ⟨0, rest, rfl, (mem_placed f).1 hmem⟩
      · exact ⟨j + 1, rest, by rw [Nat.add_right_comm, Nat.add_assoc], h⟩
    · rintro ⟨_ | j, rest, rfl, h⟩
      · exact .inl ⟨(rest, g), (mem_placed f).2 h, rfl⟩
      · exact .inr ⟨j, rest, by rw [Nat.add_right_comm, Nat.add_assoc], h⟩

end

mutual

/-- The places are in order, a place before those below it and an alternative before the next. -/
theorem placed_sorted : ∀ f : Failure, f.placed.Pairwise fun x y => x.1 < y.1
  | ⟨rule, reason, position, alternatives⟩ => by
    rw [placed, List.pairwise_cons]
    refine ⟨fun ⟨place, g⟩ h => ?_, placedFrom_sorted 0 alternatives⟩
    obtain ⟨j, rest, rfl, -⟩ := (mem_placedFrom 0 alternatives).1 h
    exact List.nil_lt_cons _ _

/-- The same for alternatives that are numbered from `i` on. -/
theorem placedFrom_sorted (i : Nat) : ∀ fs : List Failure, (placedFrom i fs).Pairwise fun x y => x.1 < y.1
  | [] => .nil
  | f :: fs => by
    rw [placedFrom, List.pairwise_append]
    refine ⟨(placed_sorted f).map _ fun x y h => List.cons_lt_cons_iff.2 (.inr ⟨rfl, h⟩),
      placedFrom_sorted (i + 1) fs, fun x hx ⟨place, g⟩ hy => ?_⟩
    obtain ⟨x, -, rfl⟩ := List.mem_map.1 hx
    obtain ⟨j, rest, rfl, -⟩ := (mem_placedFrom (i + 1) fs).1 hy
    exact List.cons_lt_cons_iff.2 (.inl (by omega))

end

mutual

/-- **The causes are the failures of the tree** in the order of their places. -/
theorem map_snd_placed : ∀ f : Failure, f.placed.map Prod.snd = f.causes
  | ⟨rule, reason, position, alternatives⟩ => by
    rw [placed, causes, List.map_cons, map_snd_placedFrom 0 alternatives]

/-- The same for alternatives that are numbered from `i` on. -/
theorem map_snd_placedFrom (i : Nat) : ∀ fs : List Failure, (placedFrom i fs).map Prod.snd = causesAll fs
  | [] => rfl
  | f :: fs => by
    rw [placedFrom, causesAll, List.map_append, List.map_map, map_snd_placedFrom (i + 1) fs, ← map_snd_placed f]
    rfl

end

/-! ### Lines -/

/-- The two lines of a failure at a level. -/
def entry (level : Nat) (f : Failure) : List String :=
  [spaces (2 * level) ++ "Not a " ++ f.rule ++ " at " ++ toString f.position ++ ":",
    spaces (2 * level + 2) ++ f.reason.message]

theorem spaces_add_two (count : Nat) : spaces (count + 2) = spaces count ++ "  " := by
  rw [← String.toList_inj, String.toList_append, toList_spaces, toList_spaces, List.replicate_add]
  rfl

theorem indent_eq_spaces : ∀ level : Nat, indent level = spaces (2 * level)
  | 0 => rfl
  | level + 1 => by rw [indent, indent_eq_spaces level, Nat.mul_add_one, spaces_add_two]

theorem ofLines_entry (level : Nat) (f : Failure) : ofLines (f.entry level) =
    indent level ++ "Not a " ++ f.rule ++ " at " ++ toString f.position ++ ":\n" ++ indent level ++ "  " ++
      f.reason.message ++ "\n" := by
  rw [entry, spaces_add_two, ← indent_eq_spaces]
  simp [ofLines, String.append_assoc]

mutual

/-- **The report of a tree is the lines of its failures**, each at the level that its place has. -/
theorem diagnosticAt_eq (level : Nat) : ∀ f : Failure,
    diagnosticAt level f = ofLines (f.placed.flatMap fun x => x.2.entry (level + x.1.length))
  | ⟨rule, reason, position, alternatives⟩ => by
    rw [placed, List.flatMap_cons, ofLines_append, ofLines_entry, diagnosticAt, diagnosticAll_eq level 0 alternatives]
    rfl

/-- The same for alternatives that are numbered from `i` on. -/
theorem diagnosticAll_eq (level i : Nat) : ∀ fs : List Failure,
    diagnosticAll (level + 1) fs = ofLines ((placedFrom i fs).flatMap fun x => x.2.entry (level + x.1.length))
  | [] => rfl
  | f :: fs => by
    have hlevel : ∀ x : List Nat × Failure, level + 1 + x.1.length = level + (i :: x.1).length := fun x => by
      rw [List.length_cons, Nat.add_right_comm, Nat.add_assoc]
    rw [placedFrom, diagnosticAll, List.flatMap_append, ofLines_append, List.flatMap_map,
      diagnosticAt_eq (level + 1) f, diagnosticAll_eq level (i + 1) fs]
    simp only [hlevel]

end

/-- Neither line of a failure is broken if its rule and its words are not. -/
theorem single_entry {f : Failure} (hrule : '\n' ∉ f.rule.toList) (hwords : '\n' ∉ f.reason.message.toList)
    (level : Nat) : ∀ line ∈ f.entry level, '\n' ∉ line.toList := by
  have hspaces : ∀ count, '\n' ∉ (spaces count).toList := fun count h => by
    rw [toList_spaces] at h
    exact absurd (List.eq_of_mem_replicate h) (by decide)
  have hposition : '\n' ∉ Nat.toDigits 10 f.position := fun h =>
    absurd (Nat.isDigit_of_mem_toDigits (by decide) (by decide) h) (by decide)
  simp [entry, hspaces, hposition, hrule, hwords]

/-- **The report lists the causes.** If no rule and no words have a line feed in them, the report has
two lines for each cause, in the order of the causes: the rule and the position, then the words. They
stand two spaces to the right for each level of the cause, which is the length of its place, and the
words two more. -/
theorem diagnostic_lines (f : Failure)
    (h : ∀ g ∈ f.causes, '\n' ∉ g.rule.toList ∧ '\n' ∉ g.reason.message.toList) :
    (∀ place g, (place, g) ∈ f.placed ↔ f.at? place = some g) ∧ f.placed.Pairwise (fun x y => x.1 < y.1) ∧
      f.placed.map Prod.snd = f.causes ∧
        HasLines f.diagnostic (f.placed.flatMap fun x => x.2.entry x.1.length) := by
  refine ⟨fun _ _ => mem_placed f, placed_sorted f, map_snd_placed f, ?_, fun line hline => ?_⟩
  · rw [diagnostic, diagnosticAt_eq]
    simp only [Nat.zero_add]
  · obtain ⟨x, hx, hline⟩ := List.mem_flatMap.1 hline
    obtain ⟨hrule, hwords⟩ := h x.2 (map_snd_placed f ▸ List.mem_map_of_mem hx)
    exact single_entry hrule hwords _ line hline

/-- A tree in which one failure stands twice, at two levels, and two others have words of their own. -/
theorem diagnostic_lines_twice :
    let leaf : Failure := .leaf "slice" .numberRange 2
    let worded : Failure := ⟨"word", .other "first", 3, [.leaf "letter" (.other "no") 4]⟩
    let f : Failure := .exhausted "bracket" 1 [.exhausted "content" 2 [leaf], leaf, worded]
    let lines : List String := ["Not a bracket at 1:", "  Unable to parse bracket",
      "  Not a content at 2:", "    Unable to parse content",
      "    Not a slice at 2:", "      Number out of range",
      "  Not a slice at 2:", "    Number out of range",
      "  Not a word at 3:", "    first",
      "    Not a letter at 4:", "      no"]
    (∀ g ∈ f.causes, '\n' ∉ g.rule.toList ∧ '\n' ∉ g.reason.message.toList) ∧
      HasLines f.diagnostic lines := by
  intro leaf worded f lines
  have h : ∀ g ∈ f.causes, '\n' ∉ g.rule.toList ∧ '\n' ∉ g.reason.message.toList := by decide
  obtain ⟨-, -, -, hlines⟩ := f.diagnostic_lines h
  have hentries : (f.placed.flatMap fun x => x.2.entry x.1.length) = lines := by decide
  exact ⟨h, hentries ▸ hlines⟩

end Failure

end PathQuery
