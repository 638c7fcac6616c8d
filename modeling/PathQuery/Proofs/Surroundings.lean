/-
# What stands around a text

A range is read by its characters alone. So a text that stands between others is read as it is on
its own, with each position of a failure moved on by what stands before it (`Expr.rule_between`).
The spaces around a text are left out before anything is looked for, whatever the limit, so they do
no more than that to the reading of the whole (`Expr.parse_surrounded`).

Key definitions: `spaces`.
Key theorems: `Expr.rule_trim`, `Expr.rule_between`, `Expr.parse_surrounded`.
-/
import PathQuery.Proofs.Reading

namespace PathQuery

open Grammar

/-- So many spaces. -/
def spaces (count : Nat) : String := String.ofList (List.replicate count ' ')

theorem toList_spaces (count : Nat) : (spaces count).toList = List.replicate count ' ' := String.toList_ofList

theorem blank_spaces (count : Nat) : Blank (List.replicate count ' ') := fun _ hc => (List.mem_replicate.1 hc).2

/-- A text between two others holds its characters behind those of the first. -/
theorem Source.window_between (before t after : List Char) :
    (Source.ofChars t).Window (.ofChars (before ++ t ++ after)) before.length ⟨0, t.length⟩ where
  stop_le := Nat.le_refl _
  stop_le' := by
    have hsize : (Source.ofChars (before ++ t ++ after)).size = (before ++ t ++ after).length := rfl
    rw [hsize, List.length_append, List.length_append]
    simp only
    omega
  charAt := by
    intro p _ hp
    have hlt : p < t.length := hp
    have hle : before.length ≤ p + before.length := Nat.le_add_left _ _
    rw [Source.charAt_ofChars, Source.charAt_ofChars, List.append_assoc, List.getElem?_append_right hle,
      Nat.add_sub_cancel, List.getElem?_append_left hlt]

namespace Expr

open Rule

variable {limit budget : Nat}

/-- An expression is read without the spaces at the ends of its range. -/
theorem rule_trim {src : Source} {s : Span} (hs : s.start < s.stop) (hstop : s.stop ≤ src.size) :
    rule src limit budget s = rule src limit budget (src.trim s) := by
  cases budget with
  | zero => exact Reader.trims_bounded (f := fun _ t => fail "expression" (.tooDeep limit) t.start) src s hs hstop
  | succ budget =>
    exact Reader.trims_bounded (f := fun src t => oneOf "expression" (Form.all src (rule src limit budget)) t) src s
      hs hstop

/-- **A text between others is read as on its own**, with the positions moved on. -/
theorem rule_between (limit budget : Nat) (before t after : List Char) :
    rule (.ofChars (before ++ t ++ after)) limit budget ⟨before.length, before.length + t.length⟩ =
      shifted before.length (rule (.ofChars t) limit budget ⟨0, t.length⟩) := by
  have hshift : Span.shift before.length ⟨0, t.length⟩ = ⟨before.length, before.length + t.length⟩ := by
    rw [Span.shift, Nat.zero_add, Nat.add_comm]
  rw [← hshift]
  exact rule_shift (Source.window_between before t after) (.inl ⟨rfl, rfl⟩)

/-- A text with spaces around what has none at its ends is read as that. -/
theorem rule_core (limit budget : Nat) {x u y : List Char} (hx : Blank x) (hy : Blank y) (hu : Tight u) :
    rule (.ofChars (x ++ u ++ y)) limit budget ⟨0, (x ++ u ++ y).length⟩ =
      shifted x.length (rule (.ofChars u) limit budget ⟨0, u.length⟩) := by
  have hpos : 0 < u.length := List.length_pos_iff.mpr hu.ne_nil
  have hlt : 0 < (x ++ u ++ y).length := by
    simp only [List.length_append]
    omega
  rw [rule_trim hlt (Nat.le_refl _), Source.trim_pad hx hy hu, rule_between]

/-- Spaces around a text are left out. -/
theorem rule_pad (limit budget : Nat) {before t after : List Char} (hbefore : Blank before) (hafter : Blank after)
    (ht : ∃ c ∈ t, c ≠ ' ') :
    rule (.ofChars (before ++ t ++ after)) limit budget ⟨0, (before ++ t ++ after).length⟩ =
      shifted before.length (rule (.ofChars t) limit budget ⟨0, t.length⟩) := by
  -- both are read as the part of `t` without spaces at its ends
  obtain ⟨x, u, y, rfl, hx, hy, hu⟩ := Tight.exists_core ht
  have hleft : Blank (before ++ x) := List.forall_mem_append.2 ⟨hbefore, hx⟩
  have hright : Blank (y ++ after) := List.forall_mem_append.2 ⟨hy, hafter⟩
  have hassoc : before ++ (x ++ u ++ y) ++ after = before ++ x ++ u ++ (y ++ after) := by
    simp only [List.append_assoc]
  rw [hassoc, rule_core limit budget hleft hright hu, rule_core limit budget hx hy hu, shifted_shifted,
    List.length_append, Nat.add_comm]

/-- **Parsing depends on the characters alone.** -/
theorem parse_surrounded :
    (∀ (limits : Limits) (a b : Nat) (t : String), (∃ c ∈ t.toList, c ≠ ' ') →
      parse limits (spaces a ++ t ++ spaces b) = shifted a (parse limits t)) ∧
    ∀ (limit budget : Nat) (before t after : String),
      rule (.ofString (before ++ t ++ after)) limit budget ⟨before.length, before.length + t.length⟩ =
        shifted before.length (rule (.ofString t) limit budget (Source.ofString t).whole) := by
  constructor
  · intro limits a b t ht
    have hchars : (spaces a ++ t ++ spaces b).toList = List.replicate a ' ' ++ t.toList ++ List.replicate b ' ' := by
      rw [String.toList_append, String.toList_append, toList_spaces, toList_spaces]
    have hpos : 0 < t.toList.length := by
      obtain ⟨c, hc, -⟩ := ht
      exact List.length_pos_of_mem hc
    have hrule := rule_pad limits.maxDepth limits.maxDepth (blank_spaces a) (blank_spaces b) ht
    rw [List.length_replicate, ← hchars] at hrule
    have hsize : (Source.ofString t).size ≠ 0 := Nat.ne_of_gt hpos
    have hsize' : (Source.ofString (spaces a ++ t ++ spaces b)).size ≠ 0 := by
      show (spaces a ++ t ++ spaces b).toList.length ≠ 0
      rw [hchars, List.length_append, List.length_append]
      omega
    unfold parse
    simp only [if_neg hsize, if_neg hsize']
    exact hrule
  · intro limit budget before t after
    have hrule := rule_between limit budget before.toList t.toList after.toList
    rw [← String.toList_append, ← String.toList_append, String.length_toList, String.length_toList] at hrule
    exact hrule

/-- A negated name between spaces is read where two levels are allowed, and fails two places further on where only
one is. -/
theorem parse_surrounded_negated :
    parse ⟨2⟩ "  !a " = .ok (.not (.selector (.identifier "a"))) ∧
      ∃ f, parse ⟨1⟩ "!a" = .error f ∧ parse ⟨1⟩ "  !a " = .error (f.shift 2) := by
  have htext : spaces 2 ++ "!a" ++ spaces 1 = "  !a " := by rfl
  have hchar : ∃ c ∈ "!a".toList, c ≠ ' ' := ⟨'!', by decide, by decide⟩
  have htwo := parse_surrounded.1 ⟨2⟩ 2 1 "!a" hchar
  have hone := parse_surrounded.1 ⟨1⟩ 2 1 "!a" hchar
  rw [htext] at htwo hone
  have hread : parse ⟨2⟩ "!a" = .ok (.not (.selector (.identifier "a"))) := by rfl
  have hfails : (parse ⟨1⟩ "!a").toOption.isNone := by rfl
  constructor
  · rw [htwo, hread]
    rfl
  · cases hf : parse ⟨1⟩ "!a" with
    | ok e =>
      rw [hf] at hfails
      cases hfails
    | error f =>
      rw [hf] at hone
      exact ⟨f, rfl, hone⟩

end Expr

end PathQuery
