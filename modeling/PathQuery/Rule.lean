/-
# Rules over ranges

A rule reads one range of a text and either makes something of the whole of it
or fails. Rules are put together in four ways: one of several (`oneOf`), one
after the other on two ranges (`pair`), on the two sides of the first cut that
suits both (`firstSplit`), and on the entries between brackets (`entries`).

Entries are told apart by commas, and a comma may also stand inside an entry. So
the first comma that ends an entry must be the only one that could; after it,
each entry is as short as its rule allows.

Key definitions: `Rule`, `Rule.oneOf`, `Rule.pair`, `Rule.firstSplit`,
`Rule.entries`.
Key theorems: `Rule.oneOf_eq_ok`, `Rule.oneOf_eq_error`, `Rule.firstSplit_eq_some`.
-/
import PathQuery.Text.Span
import PathQuery.Failure

namespace PathQuery

/-- What a rule makes of a range. -/
abbrev Rule (α : Type) := Span → Except Failure α

namespace Rule

variable {α β : Type}

/-- A rule that only fails. -/
def fail (rule : String) (reason : Reason) (position : Nat) : Except Failure α :=
  .error (.leaf rule reason position)

/-! ### Alternatives -/

/-- The result of the first rule that matches, or the failures of all. -/
def attempts (s : Span) : List (Rule α) → Except (List Failure) α
  | [] => .error []
  | rule :: rest =>
    match rule s with
    | .ok a => .ok a
    | .error f =>
      match attempts s rest with
      | .ok a => .ok a
      | .error fs => .error (f :: fs)

/-- The first of several rules that matches. -/
def oneOf (name : String) (rules : List (Rule α)) : Rule α := fun s =>
  match attempts s rules with
  | .ok a => .ok a
  | .error fs => .error (.exhausted name s.start fs)

/-! ### Two sides -/

/-- One rule on one range, then another on another. -/
def pair (left : Rule α) (l : Span) (right : Rule β) (r : Span) : Except Failure (α × β) :=
  match left l with
  | .error f => .error f
  | .ok a =>
    match right r with
    | .error f => .error f
    | .ok b => .ok (a, b)

/-- The two sides of the first cut that suits both rules. A cut at position `p`
leaves out `width` characters from `p` on. -/
def firstSplit (s : Span) (cuts : List Nat) (width : Nat) (left : Rule α) (right : Rule β) :
    Option (α × β) :=
  cuts.findSome? fun p => (pair left ⟨s.start, p⟩ right ⟨p + width, s.stop⟩).toOption

/-! ### Entries between brackets -/

/-- The entries from `start` to `stop`, cut at the first comma that leaves one
before it, then at the next, and so on. -/
def entriesFrom (entry : Rule α) (stop : Nat) : (commas : List Nat) → (start : Nat) → Except Failure (List α)
  | [], start =>
    match entry ⟨start, stop⟩ with
    | .ok a => .ok [a]
    | .error f => .error f
  | comma :: commas, start =>
    match entry ⟨start, comma⟩ with
    | .ok a =>
      match entriesFrom entry stop commas (comma + 1) with
      | .ok as => .ok (a :: as)
      | .error f => .error f
    | .error _ => entriesFrom entry stop commas start

/-- The commas that could end the first entry, each with that entry. -/
def firstEntries (entry : Rule α) (start : Nat) (commas : List Nat) : List (Nat × α) :=
  commas.filterMap fun comma => (entry ⟨start, comma⟩).toOption.map fun a => (comma, a)

/-- One or more entries between an opening and a closing character. -/
def entries (src : Source) (opening closing : Char) (entry : Rule α) : Rule (List α) := fun s =>
  if s.stop ≤ s.start then fail "multi-select" .emptyRange s.start
  else
    let t := src.trim s
    if src.first t ≠ some opening then fail "multi-select" (.missingChar opening) t.start
    else if t.length < 2 ∨ src.last t ≠ some closing then
      fail "multi-select" (.missingChar closing) (t.stop - 1)
    else
      let inner := t.inner
      let commas := src.findAll inner [',']
      if commas.isEmpty then (entry inner).map fun a => [a]
      else
        match firstEntries entry inner.start commas with
        | [] => fail "multi-select" .noFirstEntry inner.start
        | [(comma, a)] =>
          match entriesFrom entry inner.stop (commas.filter (comma < ·)) (comma + 1) with
          | .ok as => .ok (a :: as)
          | .error _ => fail "multi-select" .ambiguousSeparation t.start
        | _ => fail "multi-select" .ambiguousSeparation t.start

/-! ### What the combinations give -/

theorem attempts_eq_error {s : Span} {fs : List Failure} : ∀ {rules : List (Rule α)},
    attempts s rules = .error fs → rules.map (fun rule => rule s) = fs.map .error
  | [], h => by
    cases h
    rfl
  | rule :: rest, h => by
    unfold attempts at h
    split at h
    · cases h
    · rename_i f hf
      split at h
      · cases h
      · rename_i gs hgs
        cases h
        simp [hf, attempts_eq_error hgs]

/-- A choice that fails holds the failure of each of its rules, in order. -/
theorem oneOf_eq_error {name : String} {rules : List (Rule α)} {s : Span} {f : Failure}
    (h : oneOf name rules s = .error f) :
    ∃ fs, f = .exhausted name s.start fs ∧ rules.map (fun rule => rule s) = fs.map .error := by
  unfold oneOf at h
  split at h
  · cases h
  · rename_i fs hfs
    cases h
    exact ⟨fs, rfl, attempts_eq_error hfs⟩

theorem attempts_eq_ok {s : Span} {a : α} : ∀ {rules : List (Rule α)},
    attempts s rules = .ok a → ∃ rule ∈ rules, rule s = .ok a
  | [], h => by cases h
  | rule :: rest, h => by
    unfold attempts at h
    split at h
    · rename_i b hb
      cases h
      exact ⟨rule, List.mem_cons_self, hb⟩
    · split at h
      · rename_i b hb
        cases h
        obtain ⟨r, hr, he⟩ := attempts_eq_ok hb
        exact ⟨r, List.mem_cons_of_mem _ hr, he⟩
      · cases h

/-- A choice that matches has a rule that does. -/
theorem oneOf_eq_ok {name : String} {rules : List (Rule α)} {s : Span} {a : α}
    (h : oneOf name rules s = .ok a) : ∃ rule ∈ rules, rule s = .ok a := by
  unfold oneOf at h
  split at h
  · rename_i b hb
    cases h
    exact attempts_eq_ok hb
  · cases h

/-- A split that is found has both its sides. -/
theorem firstSplit_eq_some {s : Span} {cuts : List Nat} {width : Nat} {left : Rule α} {right : Rule β}
    {a : α} {b : β} (h : firstSplit s cuts width left right = some (a, b)) :
    ∃ p ∈ cuts, left ⟨s.start, p⟩ = .ok a ∧ right ⟨p + width, s.stop⟩ = .ok b := by
  obtain ⟨p, hp, he⟩ := List.exists_of_findSome?_eq_some h
  refine ⟨p, hp, ?_⟩
  unfold pair at he
  split at he
  · cases he
  · rename_i a' ha
    split at he
    · cases he
    · rename_i b' hb
      cases he
      exact ⟨ha, hb⟩

end Rule

end PathQuery
