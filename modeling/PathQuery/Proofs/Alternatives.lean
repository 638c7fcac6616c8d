/-
# What was tried, in order

A failure has others below it only where one of several rules was to be taken: at an expression, at
square brackets and what they hold, at a name, and at the arguments of a call and each of them
(`Choice`). There it has the failure of every rule on the same range, in the order in which they are
tried. This is an invariant of failures (`Failure.Listed.invariant`). Together with the places that
they point to (`Failure.Within`) it says what the tree of a failed text looks like
(`Expr.parse_alternatives`).

Key definitions: `Failure.Listed`, `Expr.Budgeted`.
Key theorems: `Failure.Listed.causes`, `Failure.Listed.invariant`, `Expr.parse_failsOnly`,
`Expr.parse_alternatives`.
-/
import PathQuery.Proofs.Nesting

namespace PathQuery

/-! ### Trees of failures -/

namespace Failure

/-- Whether each failure of a tree that has others below it has those of a choice, in order. The
expressions inside are read by a rule of which `nests` holds. -/
inductive Listed (src : Source) (nests : Rule Expr → Prop) : Failure → Prop
  | leaf {f : Failure} : f.alternatives = [] → Listed src nests f
  | choice {f : Failure} (c : Choice) {nested : Rule Expr} {s : Span} : nests nested → f.rule = c.name →
      f.position = s.start → (c.rules src nested).map (fun rule => rule s) = f.alternatives.map .error →
      (∀ g ∈ f.alternatives, Listed src nests g) → Listed src nests f

/-- **Every cause is a leaf or lists a choice.** -/
theorem Listed.causes {src : Source} {nests : Rule Expr → Prop} {f : Failure} (h : Listed src nests f) :
    ∀ g ∈ f.causes, g.alternatives ≠ [] → ∃ (c : Choice) (nested : Rule Expr) (s : Span), nests nested ∧
      g.rule = c.name ∧ g.position = s.start ∧
        (c.rules src nested).map (fun rule => rule s) = g.alternatives.map .error := by
  induction h with
  | leaf hnil =>
    intro g hg hne
    rcases mem_causes.mp hg with rfl | ⟨a, ha, -⟩
    · exact absurd hnil hne
    · exact nomatch hnil ▸ ha
  | choice c hnests hname hposition hrules _ ih =>
    intro g hg hne
    rcases mem_causes.mp hg with rfl | ⟨a, ha, hg⟩
    · exact ⟨c, _, _, hnests, hname, hposition, hrules⟩
    · exact ih a ha g hg hne

/-- **That choices list what was tried is an invariant.** -/
theorem Listed.invariant {src : Source} {nests : Rule Expr → Prop} {nested : Rule Expr} (hn : nests nested) :
    Invariant src nested fun _ f => f.Listed src nests where
  mono h _ := h
  leaf _ _ _ := .leaf rfl
  choice c _ hrules hfs := .choice c hn rfl rfl hrules hfs

end Failure

/-! ### Texts that are not read -/

namespace Expr

open Failure

/-- The rules for nested expressions at a limit. -/
def Budgeted (src : Source) (limit : Nat) (nested : Rule Expr) : Prop :=
  ∃ budget ≤ limit, nested = rule src limit budget

/-- A text fails as the rule for its whole range does. -/
theorem parse_failsOnly {limits : Limits} {text : String} {P : Span → Failure → Prop}
    (hP : ∀ depth ≤ limits.maxDepth, Invariant (.ofString text) (rule (.ofString text) limits.maxDepth depth) P)
    (hdeep : ∀ s, s.start ≤ s.stop → P s (.leaf "expression" (.tooDeep limits.maxDepth) s.start)) :
    FailsOnly (P (Source.ofString text).whole) (parse limits text) := by
  simp only [rule_eq_levels] at hP
  refine .ite (fun _ => (hP 0 (Nat.zero_le _)).start (Nat.zero_le _) trivial) fun _ => ?_
  rw [rule_eq_levels]
  exact levels_failsAs (fun s hs => .error (hdeep s hs)) hP _ (Nat.zero_le _)

theorem parseIdentifier_failsOnly {text : String} {nested : Rule Expr} {P : Span → Failure → Prop}
    (hP : Invariant (.ofString text) nested P) :
    FailsOnly (P (Source.ofString text).whole) (parseIdentifier text) :=
  .ite (fun _ => hP.start (Nat.zero_le _) trivial) fun _ => Token.identifier_failsAs hP _ (Nat.zero_le _)

/-- What fails to be read points into its text. -/
theorem within_of_error {limits : Limits} {text : String} {f : Failure}
    (h : parse limits text = .error f ∨ parseIdentifier text = .error f) :
    f.Within True (Source.ofString text).whole := by
  rcases h with h | h
  · exact parse_failsOnly (fun _ _ => Within.invariant _) (fun _ hs => .leaf (Nat.le_refl _) hs trivial) f h
  · exact parseIdentifier_failsOnly (Within.invariant (rule (.ofString text) 0 0)) f h

/-- What fails to be read lists what was tried. -/
theorem listed_of_error {limits : Limits} {text : String} {f : Failure}
    (h : parse limits text = .error f ∨ parseIdentifier text = .error f) :
    f.Listed (.ofString text) (Budgeted (.ofString text) limits.maxDepth) := by
  have hP : ∀ depth ≤ limits.maxDepth, Invariant (.ofString text) (rule (.ofString text) limits.maxDepth depth)
      fun _ f => f.Listed (.ofString text) (Budgeted (.ofString text) limits.maxDepth) :=
    fun depth hdepth => Listed.invariant ⟨depth, hdepth, rfl⟩
  rcases h with h | h
  · exact parse_failsOnly hP (fun _ _ => .leaf rfl) f h
  · exact parseIdentifier_failsOnly (hP 0 (Nat.zero_le _)) f h

/-- **The tree of a failure.** Every cause points into the text or at its end, and none before the one
it stands below. One that has others below it is a choice between rules, and has the failure of each
rule on one range, in the order of the rules. -/
theorem parse_alternatives {limits : Limits} {text : String} {f : Failure}
    (h : parse limits text = .error f ∨ parseIdentifier text = .error f) :
    ∀ g ∈ f.causes, g.position ≤ text.length ∧ (∀ a ∈ g.alternatives, g.position ≤ a.position) ∧
      (g.alternatives ≠ [] → ∃ (c : Choice) (budget : Nat) (s : Span), g.rule = c.name ∧
        g.alternatives.length = c.count ∧ g.position = s.start ∧
          (c.rules (.ofString text) (rule (.ofString text) limits.maxDepth budget)).map (fun rule => rule s) =
            g.alternatives.map .error) := by
  have hwithin := within_of_error h
  have hlisted := listed_of_error h
  have hsize : (Source.ofString text).whole.stop = text.length := String.length_toList
  intro g hg
  refine ⟨hsize ▸ (hwithin.causes g hg).2.1, hwithin.ordered g hg, fun hne => ?_⟩
  obtain ⟨c, _, s, ⟨budget, -, rfl⟩, hname, hposition, hrules⟩ := hlisted.causes g hg hne
  have hlength := congrArg List.length hrules
  rw [List.length_map, List.length_map, Choice.length_rules] at hlength
  exact ⟨c, budget, s, hname, hlength.symm, hposition, hrules⟩

/-- Square brackets that hold no number, no star and no slice: what they hold has three failures. -/
theorem parse_alternatives_content :
    ∃ f g, parse ⟨1⟩ "[0x]" = .error f ∧ g ∈ f.causes ∧ g.rule = "bracket-specifier-content" ∧
      g.alternatives.length = 3 ∧ g.position ≤ 4 ∧ (∀ a ∈ g.alternatives, g.position ≤ a.position) ∧
      ∃ (c : Choice) (budget : Nat) (s : Span), g.rule = c.name ∧ g.alternatives.length = c.count ∧
        g.position = s.start ∧ (c.rules (.ofString "[0x]") (rule (.ofString "[0x]") 1 budget)).map
          (fun rule => rule s) = g.alternatives.map .error := by
  have hcauses : (match parse ⟨1⟩ "[0x]" with
      | .error f => f.causes.any fun g => g.rule == "bracket-specifier-content" && g.alternatives.length == 3
      | .ok _ => false) = true := by rfl
  cases hf : parse ⟨1⟩ "[0x]" with
  | ok e =>
    rw [hf] at hcauses
    cases hcauses
  | error f =>
    rw [hf] at hcauses
    obtain ⟨g, hg, htest⟩ := List.any_eq_true.mp hcauses
    rw [Bool.and_eq_true, beq_iff_eq, beq_iff_eq] at htest
    obtain ⟨hrule, hlength⟩ := htest
    have hne : g.alternatives ≠ [] := fun hnil => by
      rw [hnil] at hlength
      cases hlength
    obtain ⟨hposition, hordered, hchoice⟩ := parse_alternatives (.inl hf) g hg
    exact ⟨f, g, rfl, hg, hrule, hlength, hposition, hordered, hchoice hne⟩

end Expr

end PathQuery
