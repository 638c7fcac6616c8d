/-
# Entries between brackets

A list of entries is read if its range, without the spaces at its ends, stands
between the two brackets, and either holds no comma and is one entry, or has
exactly one comma that ends a first entry and further entries after it
(`Rule.entries_eq_ok`). From there on each entry ends at the first comma that
leaves one before it (`Rule.entriesFrom`).

Key theorems: `Rule.entries_eq_ok`.
-/
import PathQuery.Proofs.Window
import PathQuery.Rule

namespace PathQuery

namespace Rule

variable {α : Type} {src : Source} {s : Span} {opening closing : Char} {entry : Rule α}

theorem fail_ne_ok {rule : String} {reason : Reason} {position : Nat} {a : α} :
    fail rule reason position ≠ .ok a := nofun

/-- What stands between the brackets is one entry, or a first entry and others. -/
inductive Separated (src : Source) (entry : Rule α) (inner : Span) : List α → Prop
  | single {a : α} : src.findAll inner [','] = [] → entry inner = .ok a → Separated src entry inner [a]
  | several {a : α} {as : List α} {comma : Nat} :
      firstEntries entry inner.start (src.findAll inner [',']) = [(comma, a)] →
      entriesFrom entry inner.stop ((src.findAll inner [',']).filter (comma < ·)) (comma + 1) = .ok as →
      Separated src entry inner (a :: as)

/-- What `entries` makes of the part between the brackets. -/
theorem separated_iff {start : Nat} {inner : Span} {as : List α} :
    (if (src.findAll inner [',']).isEmpty then (entry inner).map fun a => [a]
      else
        match firstEntries entry inner.start (src.findAll inner [',']) with
        | [] => fail "multi-select" .noFirstEntry inner.start
        | [(comma, a)] =>
          match entriesFrom entry inner.stop ((src.findAll inner [',']).filter (comma < ·)) (comma + 1) with
          | .ok as => .ok (a :: as)
          | .error _ => fail "multi-select" .ambiguousSeparation start
        | _ => fail "multi-select" .ambiguousSeparation start) = .ok as ↔ Separated src entry inner as := by
  by_cases hc : src.findAll inner [','] = []
  · rw [if_pos (List.isEmpty_iff.mpr hc)]
    constructor
    · intro h
      cases he : entry inner with
      | error f => rw [he] at h; cases h
      | ok a =>
        rw [he] at h
        cases h
        exact .single hc he
    · intro h
      cases h with
      | single _ he => rw [he]; rfl
      | several hfe _ => rw [hc] at hfe; cases hfe
  · rw [if_neg (hc ∘ List.isEmpty_iff.mp)]
    constructor
    · intro h
      split at h
      · cases h
      · rename_i comma a hfe
        split at h
        · rename_i as' hrest
          cases h
          exact .several hfe hrest
        · cases h
      · cases h
    · intro h
      cases h with
      | single hnil _ => exact absurd hnil hc
      | several hfe hrest => simp only [hfe, hrest]

/-- **When entries are read.** The trimmed range begins and ends with the two
brackets, and what is between them is separated. -/
theorem entries_eq_ok {as : List α} :
    entries src opening closing entry s = .ok as ↔
      s.start < s.stop ∧ 2 ≤ (src.trim s).length ∧ src.charAt (src.trim s).start = some opening ∧
        src.charAt ((src.trim s).stop - 1) = some closing ∧ Separated src entry (src.trim s).inner as := by
  unfold entries
  by_cases hle : s.stop ≤ s.start
  · rw [if_pos hle]
    exact ⟨nofun, fun h => absurd h.1 (Nat.not_lt.mpr hle)⟩
  have hlt : s.start < s.stop := Nat.lt_of_not_le hle
  have ht := (src.trim_bounds hlt).2.1
  rw [if_neg hle]
  generalize src.trim s = t at *
  have hfirst : src.first t = src.charAt t.start := if_pos ht
  have hlast : src.last t = src.charAt (t.stop - 1) := if_pos ht
  simp only [hfirst, hlast]
  by_cases h1 : src.charAt t.start = some opening
  · rw [if_neg (not_not_intro h1)]
    by_cases h2 : t.length < 2 ∨ src.charAt (t.stop - 1) ≠ some closing
    · rw [if_pos h2]
      refine ⟨nofun, fun ⟨_, hlen, _, hclosing, _⟩ => ?_⟩
      rcases h2 with h2 | h2
      · exact absurd hlen (Nat.not_le.mpr h2)
      · exact absurd hclosing h2
    · rw [if_neg h2]
      have hlen : 2 ≤ t.length := Nat.le_of_not_lt fun h => h2 (.inl h)
      have hclosing : src.charAt (t.stop - 1) = some closing := Decidable.not_not.mp fun h => h2 (.inr h)
      exact ⟨fun h => ⟨hlt, hlen, h1, hclosing, separated_iff.mp h⟩, fun h => separated_iff.mpr h.2.2.2.2⟩
  · rw [if_pos h1]
    exact ⟨nofun, fun h => absurd h.2.2.1 h1⟩

theorem mem_firstEntries {start : Nat} {commas : List Nat} {comma : Nat} {a : α} :
    (comma, a) ∈ firstEntries entry start commas ↔ comma ∈ commas ∧ entry ⟨start, comma⟩ = .ok a := by
  unfold firstEntries
  rw [List.mem_filterMap]
  constructor
  · rintro ⟨p, hp, he⟩
    cases hr : entry ⟨start, p⟩ with
    | error f => simp [hr, Except.toOption] at he
    | ok b =>
      simp only [hr, Except.toOption, Option.map_some, Option.some.injEq, Prod.mk.injEq] at he
      obtain ⟨rfl, rfl⟩ := he
      exact ⟨hp, hr⟩
  · rintro ⟨hp, he⟩
    exact ⟨comma, hp, by rw [he]; rfl⟩

end Rule

end PathQuery
