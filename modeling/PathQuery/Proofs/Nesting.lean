/-
# Nesting is bounded by the text

An expression is read from the expressions on shorter ranges inside its own, and from no
other (`Expr.step_congr`). So expressions nest no deeper than the text is long, and a budget
of as many levels is as good as none: what is to be read beyond them makes no difference
(`Expr.levels_eq`). Any two limits that the text does not exceed give it the same tree or
the same failure, and none of its causes is the limit.

Key definitions: `Source.Nested`, `Expr.step`, `Expr.levels`.
Key theorems: `Expr.step_congr`, `Source.length_nested`, `Expr.levels_eq`,
`Expr.parse_bounded`.
-/
import PathQuery.Proofs.Failures

namespace PathQuery

/-! ### Ranges inside a range -/

namespace Source

variable {src : Source} {s : Span}

/-- The ranges that the expressions inside one may have: they lie in its range without the
spaces, and are shorter, with their own spaces or without. -/
structure Nested (src : Source) (s r : Span) : Prop where
  inside : r.Inside (src.trim s)
  shorter : r.length < (src.trim s).length
  trimmed : (src.trim r).length < (src.trim s).length

theorem trim_of_le (src : Source) (h : s.stop ≤ s.start) : src.trim s = s := by
  have hcount : s.stop - (s.start + 1) = 0 := by omega
  simp only [trim, trimLeft, trimRight, hcount, afterSpaces, beforeSpaces]

theorem nested_of_shorter {r : Span} (hr : r.Inside (src.trim s)) (h : r.length < (src.trim s).length) :
    src.Nested s r where
  inside := hr
  shorter := h
  trimmed := by
    by_cases hlt : r.start < r.stop
    · exact Nat.lt_of_le_of_lt (src.trim_length_le hlt) h
    · rwa [src.trim_of_le (Nat.le_of_not_lt hlt)]

/-- **Ranges that hold something are nested no deeper than the first is long.** -/
theorem length_nested : ∀ {rs : List Span} {s : Span}, List.IsChain src.Nested (s :: rs) →
    (∀ r ∈ s :: rs, r.start < r.stop) → (s :: rs).length ≤ (src.trim s).length
  | [], s, _, h => by
    have := src.trim_bounds (h s List.mem_cons_self)
    simp only [List.length_singleton, Span.length]
    omega
  | r :: rs, s, hchain, h => by
    obtain ⟨hnested, hchain⟩ := List.isChain_cons_cons.mp hchain
    have hrest := length_nested hchain fun q hq => h q (List.mem_cons_of_mem s hq)
    have := hnested.trimmed
    rw [List.length_cons]
    omega

end Source

namespace Expr

open Rule Failure

variable {src : Source} {nested nested' beyond beyond' : Rule Expr} {s : Span}

/-! ### Levels -/

/-- An expression, from the rule for the expressions inside it. -/
def step (src : Source) (nested : Rule Expr) : Rule Expr := fun s => do
  let t ← Token.bounded src "expression" s
  oneOf "expression" (Form.all src nested) t

/-- An expression that is read down to a depth, with a rule for what lies beyond. -/
def levels (src : Source) (beyond : Rule Expr) : (depth : Nat) → Rule Expr
  | 0 => fun s => do
    let t ← Token.bounded src "expression" s
    beyond t
  | depth + 1 => step src (levels src beyond depth)

/-- The limit stands for what lies beyond the budget. -/
theorem rule_eq_levels (src : Source) (limit : Nat) : ∀ budget : Nat,
    rule src limit budget = levels src (fun t => fail "expression" (.tooDeep limit) t.start) budget
  | 0 => rfl
  | budget + 1 => by
    rw [levels, ← rule_eq_levels src limit budget]
    rfl

/-- **An expression depends on shorter expressions inside it only.** -/
theorem step_congr (hs : s.stop ≤ src.size) (h : ∀ r, src.Nested s r → nested r = nested' r) :
    step src nested s = step src nested' s := by
  have w : src.Window src 0 s := .refl hs
  have hstep : step src nested' (s.shift 0) = shifted 0 (step src nested s) := by
    refine Token.bounded_shift w fun hlt => oneOf_shift (Form.all_shift (w.mono (src.trim_inside hlt)) ?_)
    intro r hr hshorter
    rw [shifted_zero, Span.shift_zero, h r (Source.nested_of_shorter hr hshorter)]
  rw [shifted_zero, Span.shift_zero] at hstep
  exact hstep.symm

theorem levels_of_le (h : s.stop ≤ s.start) (depth : Nat) :
    levels src beyond depth s = fail "expression" .emptyRange s.start := by
  cases depth <;> simp only [levels, step, Token.bounded, if_neg (Nat.not_lt.mpr h)] <;> rfl

/-- **What lies beyond as many levels as a range is long makes no difference.** -/
theorem levels_eq : ∀ {depth depth' : Nat} {s : Span}, s.stop ≤ src.size → s.length ≤ depth →
    s.length ≤ depth' → levels src beyond depth s = levels src beyond' depth' s
  | 0, depth', s, hs, h, _ => by
    have hle : s.stop ≤ s.start := Nat.sub_eq_zero_iff_le.mp (Nat.le_zero.mp h)
    rw [levels_of_le hle, levels_of_le hle]
  | depth + 1, 0, s, hs, _, h => by
    have hle : s.stop ≤ s.start := Nat.sub_eq_zero_iff_le.mp (Nat.le_zero.mp h)
    rw [levels_of_le hle, levels_of_le hle]
  | depth + 1, depth' + 1, s, hs, h, h' => by
    by_cases hlt : s.start < s.stop
    · refine step_congr hs fun r hr => ?_
      have ht := src.trim_length_le hlt
      have hshorter := hr.shorter
      have hstop := Nat.le_trans hr.inside.2 (src.trim_bounds hlt).2.2
      exact levels_eq (Nat.le_trans hstop hs) (by omega) (by omega)
    · rw [levels_of_le (Nat.le_of_not_lt hlt), levels_of_le (Nat.le_of_not_lt hlt)]

/-- **An expression fails as those inside it do.** -/
theorem step_failsAs {P : Span → Failure → Prop} (hP : Invariant src nested P) (hn : nested.FailsAs P) :
    (step src nested).FailsAs P :=
  hP.bounded fun t ht => hP.oneOf .expression (Form.all_failsAs hP hn) t (Nat.le_of_lt ht)

/-- Each level fails as what lies beyond all levels does. -/
theorem levels_failsAs {P : Span → Failure → Prop} (h : beyond.FailsAs P) : ∀ {depth : Nat},
    (∀ d ≤ depth, Invariant src (levels src beyond d) P) → (levels src beyond depth).FailsAs P
  | 0, hP => (hP 0 (Nat.le_refl _)).bounded fun t ht => h t (Nat.le_of_lt ht)
  | _ + 1, hP =>
    have hP' := fun d hd => hP d (Nat.le_succ_of_le hd)
    step_failsAs (hP' _ (Nat.le_refl _)) (levels_failsAs h hP')

/-! ### Limits that a text does not exceed -/

/-- No other rule beyond the levels makes a difference, the limit included. -/
theorem levels_eq_rule {limit depth budget : Nat} (hs : s.stop ≤ src.size) (h : s.length ≤ depth)
    (h' : s.length ≤ budget) : levels src beyond depth s = rule src limit budget s := by
  rw [rule_eq_levels]
  exact levels_eq hs h h'

theorem rule_eq_rule {limit limit' budget budget' : Nat} (hs : s.stop ≤ src.size) (h : s.length ≤ budget)
    (h' : s.length ≤ budget') : rule src limit budget s = rule src limit' budget' s := by
  rw [rule_eq_levels]
  exact levels_eq_rule hs h h'

/-- With as many levels as a range is long the limit is no reason to refuse it. -/
theorem rule_within {limit budget : Nat} (h : s.start ≤ s.stop) (hs : s.stop ≤ src.size)
    (hbudget : s.length ≤ budget) : FailsOnly (Within False s) (rule src limit budget s) := by
  have hbeyond : Rule.FailsAs (Within False) fun t => (fail "expression" .emptyRange t.start : Except Failure Expr) :=
    fun _ hr => .error (.leaf (Nat.le_refl _) hr trivial)
  rw [← levels_eq_rule hs (Nat.le_refl _) hbudget]
  exact levels_failsAs hbeyond (fun _ _ => Within.invariant _) s h

theorem parse_eq_of_length_le {text : String} {limits limits' : Limits} (h : text.length ≤ limits.maxDepth)
    (h' : text.length ≤ limits'.maxDepth) : parse limits text = parse limits' text := by
  have hsize : (Source.ofString text).whole.length = text.length := String.length_toList
  unfold parse
  simp only
  rw [rule_eq_rule (Nat.le_refl _) (hsize ▸ h) (hsize ▸ h')]

theorem parse_within_of_length_le {text : String} {limits : Limits} (h : text.length ≤ limits.maxDepth) :
    FailsOnly (Within False (Source.ofString text).whole) (parse limits text) := by
  have hsize : (Source.ofString text).whole.length = text.length := String.length_toList
  refine .ite (fun _ => .error (.leaf (Nat.le_refl _) (Nat.zero_le _) trivial)) fun _ => ?_
  exact rule_within (Nat.zero_le _) (Nat.le_refl _) (hsize ▸ h)

/-- **Nesting is bounded by the text.** What is read of a range depends on ranges inside it
only that are shorter once the spaces at its ends are left out; so such ranges are nested no
deeper than the first is long, and with as many levels as that nothing is ever read beyond
them. Any two limits that are not below the length of a text read it alike, as the same tree
or with the same failure, and no cause of a failure is that expressions nest too deep. -/
theorem parse_bounded :
    (∀ (src : Source) (s : Span) (nested nested' : Rule Expr), s.stop ≤ src.size →
      (∀ r, src.Nested s r → nested r = nested' r) → step src nested s = step src nested' s) ∧
    (∀ (src : Source) (s : Span) (rs : List Span), List.IsChain src.Nested (s :: rs) →
      (∀ r ∈ s :: rs, r.start < r.stop) → (s :: rs).length ≤ s.length) ∧
    (∀ (src : Source) (s : Span) (beyond : Rule Expr) (limit depth budget : Nat), s.stop ≤ src.size →
      s.length ≤ depth → s.length ≤ budget → levels src beyond depth s = rule src limit budget s) ∧
    ∀ (text : String) (limits limits' : Limits), text.length ≤ limits.maxDepth →
      text.length ≤ limits'.maxDepth → parse limits text = parse limits' text ∧
        ∀ f, parse limits text = .error f → ∀ g ∈ f.causes, ∀ limit,
          g.reason.message ≠ (Reason.tooDeep limit).message := by
  refine ⟨fun src s nested nested' => step_congr, fun src s rs hchain hrs => ?_, ?_, ?_⟩
  · have hs := hrs s List.mem_cons_self
    exact Nat.le_trans (Source.length_nested hchain hrs) (src.trim_length_le hs)
  · exact fun src s beyond limit depth budget => levels_eq_rule
  · refine fun text limits limits' h h' => ⟨parse_eq_of_length_le h h', fun f hf g hg limit => ?_⟩
    exact Reason.message_ne_tooDeep ((parse_within_of_length_le h f hf).causes g hg).2.2 limit

/-- A text of two characters that no expression is. -/
theorem parse_bounded_unread :
    "!)".length ≤ (⟨2⟩ : Limits).maxDepth ∧ "!)".length ≤ (⟨3⟩ : Limits).maxDepth ∧
      parse ⟨2⟩ "!)" = parse ⟨3⟩ "!)" ∧ (parse ⟨2⟩ "!)").toOption = none ∧
      ∀ f, parse ⟨2⟩ "!)" = .error f → ∀ g ∈ f.causes, ∀ limit,
        g.reason.message ≠ (Reason.tooDeep limit).message :=
  ⟨by decide, by decide, (parse_bounded.2.2.2 "!)" ⟨2⟩ ⟨3⟩ (by decide) (by decide)).1, by rfl,
    (parse_bounded.2.2.2 "!)" ⟨2⟩ ⟨3⟩ (by decide) (by decide)).2⟩

end Expr

end PathQuery
