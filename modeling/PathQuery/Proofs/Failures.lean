/-
# What rules fail with

A rule that fails on a range either does so on its own, or passes on the failure of a part of
the range, or is a choice between others and has the failure of each of them (`Choice`). So a
property of failures that is kept in these three ways (`Failure.Invariant`) holds of what a
form fails with if it holds of what the expressions inside it fail with (`Form.all_failsAs`).

The first invariant is where failures point: into the range, its end included, and none
before the failure that it stands below (`Failure.Within`). The limit of the nesting is among
the reasons only if it is among those of the expressions inside.

Key definitions: `Choice`, `Choice.rules`, `Failure.Invariant`, `Rule.FailsAs`,
`Reason.Allowed`, `Failure.Within`.
Key theorems: `Failure.Invariant.oneOf`, `Form.all_failsAs`, `Reason.message_ne_tooDeep`,
`Failure.Within.causes`, `Failure.Within.invariant`.
-/
import PathQuery.Proofs.Locality
import PathQuery.Proofs.Outcome

namespace PathQuery

/-! ### Choices between rules -/

/-- Where one of several rules is taken. -/
inductive Choice
  | expression
  | index
  | content
  | identifier
  | arguments
  | argument

namespace Choice

/-- What is made of the range. -/
abbrev Tree : Choice → Type
  | expression => Expr
  | index => Expr
  | content => Bracket
  | identifier => String
  | arguments => List Argument
  | argument => Argument

/-- What a failure calls the choice. -/
def name : Choice → String
  | expression => "expression"
  | index => "index-expression"
  | content => "bracket-specifier-content"
  | identifier => "identifier"
  | arguments => "function-arguments"
  | argument => "function-arg"

/-- How many rules there are. -/
def count : Choice → Nat
  | expression => 16
  | content => 3
  | index | identifier | arguments | argument => 2

/-- The rules in the order in which they are tried, from the rule for the expressions inside. -/
def rules (src : Source) (nested : Rule Expr) : (c : Choice) → List (Rule c.Tree)
  | expression => Form.all src nested
  | index => [Form.indexedLeft src nested, fun s => (Form.bracket src nested s).map .index]
  | content =>
    [fun s => (Token.number src s).map .number, Form.mark src "star-expression" '*' .star,
      fun s => (Form.slice src s).map .slice]
  | identifier => [Token.name src, Token.quotedName src]
  | arguments => [Form.noArguments src, Rule.entries src '(' ')' (Form.argument src nested)]
  | argument => [fun s => (nested s).map .value, fun s => (Form.reference src nested s).map .reference]

theorem length_rules (src : Source) (nested : Rule Expr) (c : Choice) : (c.rules src nested).length = c.count := by
  cases c <;> rfl

end Choice

/-! ### Reasons -/

/-- Whether the grammar gives a reason. It gives the limit of the nesting if `deep` holds, and
no words that are not its own. -/
def Reason.Allowed (deep : Prop) : Reason → Prop
  | .tooDeep _ => deep
  | .other _ => False
  | _ => True

theorem Reason.Allowed.imp {p q : Prop} (hpq : p → q) {reason : Reason} (h : reason.Allowed p) :
    reason.Allowed q := by
  cases reason with
  | tooDeep => exact hpq h
  | _ => exact h

theorem head?_append {t u : String} {c : Char} (h : t.toList.head? = some c) :
    (t ++ u).toList.head? = some c := by
  rw [String.toList_append, List.head?_append, h]
  rfl

theorem Reason.head?_message {reason : Reason} (h : reason.Allowed False) :
    ∃ c, reason.message.toList.head? = some c ∧ c ≠ 'M' := by
  cases reason with
  | tooDeep | other => exact h.elim
  | emptyText | exhausted | missing | noSplit | json => exact ⟨_, head?_append rfl, by decide⟩
  | missingChar | functionName => exact ⟨_, head?_append (head?_append rfl), by decide⟩
  | _ => exact ⟨_, rfl, by decide⟩

/-- No other reason that the grammar gives is worded like the limit of the nesting. -/
theorem Reason.message_ne_tooDeep {reason : Reason} (h : reason.Allowed False) (limit : Nat) :
    reason.message ≠ (Reason.tooDeep limit).message := by
  obtain ⟨c, hc, hne⟩ := Reason.head?_message h
  have hlimit : (Reason.tooDeep limit).message.toList.head? = some 'M' := head?_append (head?_append rfl)
  intro heq
  rw [heq, hlimit] at hc
  exact hne (Option.some.inj hc).symm

namespace Failure

/-! ### Invariants -/

/-- A property of the failures on a range that the rules of the grammar keep. -/
structure Invariant (src : Source) (nested : Rule Expr) (P : Span → Failure → Prop) : Prop where
  /-- What holds of a failure on a part of a range holds of it on the range. -/
  mono {r s : Span} {f : Failure} : P r f → r.Inside s → P s f
  /-- It holds of what fails on its own, but for the limit of the nesting. -/
  leaf {s : Span} {rule : String} {reason : Reason} {position : Nat} : s.start ≤ position →
    position ≤ s.stop → reason.Allowed False → P s (.leaf rule reason position)
  /-- It holds of a choice if it holds of what each of its rules fails with. -/
  choice {s : Span} {fs : List Failure} (c : Choice) : s.start ≤ s.stop →
    (c.rules src nested).map (fun rule => rule s) = fs.map .error → (∀ f ∈ fs, P s f) →
      P s (.exhausted c.name s.start fs)

end Failure

/-! ### The ways in which rules are put together -/

variable {src : Source} {nested : Rule Expr} {P : Span → Failure → Prop} {r s : Span}

/-- Whether a rule fails on each range as `P` says. -/
def Rule.FailsAs {α : Type} (P : Span → Failure → Prop) (rule : Rule α) : Prop :=
  ∀ s : Span, s.start ≤ s.stop → FailsOnly (P s) (rule s)

theorem Rule.FailsAs.map {α β : Type} {rule : Rule α} (h : rule.FailsAs P) (f : α → β) :
    Rule.FailsAs P fun s => (rule s).map f := fun s hs => (h s hs).map f

namespace Failure.Invariant

variable {α : Type}

theorem inside (hP : Invariant src nested P) {result : Except Failure α} (h : FailsOnly (P r) result)
    (hr : r.Inside s) : FailsOnly (P s) result := h.mono fun _ hf => hP.mono hf hr

theorem fail (hP : Invariant src nested P) {rule : String} {reason : Reason} {position : Nat}
    (hstart : s.start ≤ position) (hstop : position ≤ s.stop) (hreason : reason.Allowed False) :
    FailsOnly (P s) (Rule.fail rule reason position : Except Failure α) := .error (hP.leaf hstart hstop hreason)

theorem start (hP : Invariant src nested P) {rule : String} {reason : Reason} (hs : s.start ≤ s.stop)
    (hreason : reason.Allowed False) : FailsOnly (P s) (Rule.fail rule reason s.start : Except Failure α) :=
  hP.fail (Nat.le_refl _) hs hreason

/-- What fails on the range without the spaces fails on the range. -/
theorem bounded (hP : Invariant src nested P) {rule : String} {f : Rule α}
    (h : ∀ t : Span, t.start < t.stop → FailsOnly (P t) (f t)) :
    Rule.FailsAs P fun s => Token.bounded src rule s >>= f := by
  intro s hs
  simp only [Token.bounded]
  by_cases hlt : s.start < s.stop
  · rw [if_pos hlt]
    exact hP.inside (h (src.trim s) (src.trim_bounds hlt).2.1) (src.trim_inside hlt)
  · rw [if_neg hlt]
    exact hP.start hs trivial

/-- **A choice fails as its rules do.** -/
theorem oneOf (hP : Invariant src nested P) (c : Choice) (h : ∀ rule ∈ c.rules src nested, rule.FailsAs P) :
    (Rule.oneOf c.name (c.rules src nested)).FailsAs P := by
  intro s hs f hf
  obtain ⟨fs, rfl, hrules⟩ := Rule.oneOf_eq_error hf
  refine hP.choice c hs hrules fun g hg => ?_
  have hmem : (.error g : Except Failure c.Tree) ∈ (c.rules src nested).map fun rule => rule s :=
    hrules ▸ List.mem_map_of_mem hg
  obtain ⟨rule, hrule, hfail⟩ := List.mem_map.mp hmem
  exact h rule hrule s hs g hfail

/-- **Entries fail as each entry does.** If there are several, their failures are left out. -/
theorem entries (hP : Invariant src nested P) {opening closing : Char} {entry : Rule α} (h : entry.FailsAs P) :
    (Rule.entries src opening closing entry).FailsAs P := by
  intro s hs
  unfold Rule.entries
  refine .ite (fun _ => hP.start hs trivial) fun hlt => ?_
  obtain ⟨h1, h2, h3⟩ := src.trim_bounds (Nat.lt_of_not_le hlt)
  generalize src.trim s = t at *
  refine .ite (fun _ => hP.fail h1 (by omega) trivial) fun _ =>
    .ite (fun _ => hP.fail (by omega) (by omega) trivial) fun hlen => ?_
  simp only [Span.length] at hlen
  refine .ite (fun _ => .map ?_ _) fun _ => ?_
  · exact hP.inside (h t.inner (by simp only [Span.inner]; omega)) (t.inner_inside.trans ⟨h1, h3⟩)
  · split
    · exact hP.fail (by simp only [Span.inner]; omega) (by simp only [Span.inner]; omega) trivial
    · split
      · exact .ok _
      · exact hP.fail h1 (by omega) trivial
    · exact hP.fail h1 (by omega) trivial

end Failure.Invariant

open Failure (Invariant)

/-! ### Tokens -/

namespace Token

theorem single_failsAs (hP : Invariant src nested P) {rule : String} {c : Char} : (single src rule c).FailsAs P :=
  hP.bounded fun _ ht =>
    .ite (fun _ => hP.start (Nat.le_of_lt ht) trivial) fun _ =>
      .ite (fun _ => hP.fail (Nat.le_succ _) ht trivial) fun _ => .ok ()

theorem name_failsAs (hP : Invariant src nested P) : (name src).FailsAs P := by
  refine hP.bounded fun t ht => .ite (fun _ => ?_) fun _ => hP.start (Nat.le_of_lt ht) trivial
  split
  · rename_i i hi
    have hlt := (List.findIdx?_eq_some_iff_getElem.mp hi).1
    rw [src.slice_eq, List.length_take] at hlt
    exact hP.fail (Nat.le_add_right _ _) (by omega) trivial
  · exact .ok _

/-- What is left of a text after some characters lies in its range. -/
theorem rest_inside (text : List Char) {rest : List Char} {position count : Nat}
    (h : count + rest.length = text.length) :
    Span.Inside ⟨position + count, position + count + rest.length⟩ ⟨position, position + text.length⟩ :=
  ⟨Nat.le_add_right _ _, by simp only; omega⟩

theorem decodeQuoted_failsOnly (hP : Invariant src nested P) (text : List Char) (position : Nat) :
    FailsOnly (P ⟨position, position + text.length⟩) (decodeQuoted text position) := by
  fun_induction decodeQuoted text position with
  | case1 => exact .ok _
  | case3 _ _ _ _ _ _ _ ih | case6 _ _ _ _ _ _ ih | case8 _ _ _ _ _ ih =>
    exact .map (hP.inside ih (rest_inside _ (by simp; omega))) _
  | case2 | case4 | case5 | case7 | case9 => exact hP.start (Nat.le_add_right _ _) trivial

theorem decodeRaw_failsOnly (hP : Invariant src nested P) (text : List Char) (position : Nat) :
    FailsOnly (P ⟨position, position + text.length⟩) (decodeRaw text position) := by
  fun_induction decodeRaw text position with
  | case1 => exact .ok _
  | case3 _ _ _ _ ih | case4 _ _ _ _ _ ih | case6 _ _ _ _ _ ih =>
    exact .map (hP.inside ih (rest_inside _ (by simp; omega))) _
  | case2 | case5 | case7 => exact hP.start (Nat.le_add_right _ _) trivial

/-- The text between the two quotes of a range. -/
theorem inner_inside {t : Span} (h : 2 ≤ t.length) :
    Span.Inside ⟨t.start + 1, t.start + 1 + (src.slice t.inner).length⟩ t := by
  have hlength : (src.slice t.inner).length ≤ t.inner.stop - t.inner.start := by
    rw [src.slice_eq, List.length_take]
    exact Nat.min_le_left _ _
  simp only [Span.inner, Span.length] at hlength h
  exact ⟨Nat.le_succ _, by simp only [Span.inner]; omega⟩

theorem quotedName_failsAs (hP : Invariant src nested P) : (quotedName src).FailsAs P := by
  refine hP.bounded fun t ht =>
    .ite (fun _ => hP.start (Nat.le_of_lt ht) trivial) fun _ =>
      .ite (fun _ => hP.fail (by omega) (by omega) trivial) fun hlen => .map ?_ _
  exact hP.inside (decodeQuoted_failsOnly hP _ _) (inner_inside (by omega))

theorem identifier_failsAs (hP : Invariant src nested P) : (identifier src).FailsAs P := by
  refine hP.oneOf .identifier ?_
  simp only [Choice.rules, List.forall_mem_cons]
  exact ⟨name_failsAs hP, quotedName_failsAs hP, List.forall_mem_nil _⟩

theorem rawString_failsAs (hP : Invariant src nested P) : (rawString src).FailsAs P := by
  refine hP.bounded fun t ht =>
    .ite (fun _ => hP.start (Nat.le_of_lt ht) trivial) fun hlen =>
      .ite (fun _ => hP.start (Nat.le_of_lt ht) trivial) fun _ =>
        .ite (fun _ => hP.fail (by omega) (by omega) trivial) fun _ => .map ?_ _
  exact hP.inside (decodeRaw_failsOnly hP _ _) (inner_inside (Nat.le_of_not_lt hlen))

theorem number_failsAs (hP : Invariant src nested P) : (number src).FailsAs P :=
  hP.bounded fun _ ht => .ite (fun _ => hP.start (Nat.le_of_lt ht) trivial) fun _ =>
    .ite (fun _ => .ok _) fun _ => hP.start (Nat.le_of_lt ht) trivial

theorem literal_failsAs (hP : Invariant src nested P) : (literal src).FailsAs P := by
  refine hP.bounded fun t ht =>
    .ite (fun _ => hP.start (Nat.le_of_lt ht) trivial) fun _ =>
      .ite (fun _ => hP.start (Nat.le_of_lt ht) trivial) fun _ =>
        .ite (fun _ => hP.fail (by omega) (by omega) trivial) fun _ => ?_
  split
  · exact hP.start (Nat.le_of_lt ht) trivial
  · split
    · exact .ok _
    · exact hP.start (Nat.le_of_lt ht) trivial

end Token

/-! ### Forms -/

namespace Form

open Token

theorem mark_failsAs (hP : Invariant src nested P) {α : Type} {rule : String} {c : Char} {a : α} :
    (mark src rule c a).FailsAs P := (single_failsAs hP).map _

theorem joined_failsAs (hP : Invariant src nested P) {rule symbol : String} {op : Operator} :
    (joined src nested rule symbol op).FailsAs P := by
  refine hP.bounded fun t ht => ?_
  split
  · exact .ok _
  · exact hP.start (Nat.le_of_lt ht) trivial

theorem comparison_failsAs (hP : Invariant src nested P) : (comparison src nested).FailsAs P := by
  refine hP.bounded fun t ht => ?_
  simp only
  split
  · exact .ok _
  · exact hP.start (Nat.le_of_lt ht) trivial

theorem negated_failsAs (hP : Invariant src nested P) (hn : nested.FailsAs P) : (negated src nested).FailsAs P := by
  refine hP.bounded fun t ht => .ite (fun _ => hP.start (Nat.le_of_lt ht) trivial) fun _ => .map ?_ _
  exact hP.inside (hn ⟨t.start + 1, t.stop⟩ ht) ⟨Nat.le_succ _, Nat.le_refl _⟩

theorem parenthesised_failsAs (hP : Invariant src nested P) (hn : nested.FailsAs P) :
    (parenthesised src nested).FailsAs P := by
  refine hP.bounded fun t ht => .ite (fun _ => hP.start (Nat.le_of_lt ht) trivial) fun _ =>
    .ite (fun _ => hP.fail (by omega) (by omega) trivial) fun hlen => .map ?_ _
  simp only [Span.length] at hlen
  exact hP.inside (hn t.inner (by simp only [Span.inner]; omega)) t.inner_inside

theorem listOf_failsAs (hP : Invariant src nested P) (hn : nested.FailsAs P) : (listOf src nested).FailsAs P :=
  (hP.entries hn).map _

theorem keyValue_failsAs (hP : Invariant src nested P) : (keyValue src nested).FailsAs P := by
  refine hP.bounded fun t ht => ?_
  split
  · exact .ok _
  · exact hP.start (Nat.le_of_lt ht) trivial

theorem hashOf_failsAs (hP : Invariant src nested P) : (hashOf src nested).FailsAs P :=
  (hP.entries (keyValue_failsAs hP)).map _

theorem reference_failsAs (hP : Invariant src nested P) (hn : nested.FailsAs P) :
    (reference src nested).FailsAs P := by
  refine hP.bounded fun t ht => .ite (fun _ => hP.start (Nat.le_of_lt ht) trivial) fun _ => ?_
  exact hP.inside (hn ⟨t.start + 1, t.stop⟩ ht) ⟨Nat.le_succ _, Nat.le_refl _⟩

theorem argument_failsAs (hP : Invariant src nested P) (hn : nested.FailsAs P) : (argument src nested).FailsAs P := by
  refine hP.oneOf .argument ?_
  simp only [Choice.rules, List.forall_mem_cons]
  exact ⟨hn.map _, (reference_failsAs hP hn).map _, List.forall_mem_nil _⟩

theorem noArguments_failsAs (hP : Invariant src nested P) : (noArguments src).FailsAs P := by
  refine hP.bounded fun t ht => .ite (fun _ => hP.start (Nat.le_of_lt ht) trivial) fun _ => ?_
  have hclose := src.afterSpaces_bounds (t.stop - (t.start + 1 + 1)) (t.start + 1)
  change t.start + 1 ≤ src.trimLeft ⟨t.start + 1, t.stop⟩ ∧ src.trimLeft ⟨t.start + 1, t.stop⟩ ≤ _ at hclose
  simp only
  generalize src.trimLeft ⟨t.start + 1, t.stop⟩ = close at *
  exact .ite (fun _ => hP.fail (by omega) (by omega) trivial) fun _ =>
    .ite (fun _ => hP.fail (by omega) (by omega) trivial) fun _ => .ok _

theorem arguments_failsAs (hP : Invariant src nested P) (hn : nested.FailsAs P) :
    (arguments src nested).FailsAs P := by
  refine hP.oneOf .arguments ?_
  simp only [Choice.rules, List.forall_mem_cons]
  exact ⟨noArguments_failsAs hP, hP.entries (argument_failsAs hP hn), List.forall_mem_nil _⟩

theorem functionName_failsOnly (hP : Invariant src nested P) {paren : Nat} (hs : s.start ≤ s.stop) :
    FailsOnly (P s) (functionName src s paren) := by
  unfold functionName
  cases name src ⟨s.start, paren⟩ with
  | ok n => exact .ok _
  | error f => exact hP.start hs trivial

theorem call_failsAs (hP : Invariant src nested P) (hn : nested.FailsAs P) : (call src nested).FailsAs P := by
  refine hP.bounded fun t ht => .ite (fun _ => hP.start (Nat.le_of_lt ht) trivial) fun _ =>
    .bind (functionName_failsOnly hP (Nat.le_of_lt ht)) fun _ => .map ?_ _
  have hparen : t.start ≤ (src.findChar t '(').getD t.start ∧ (src.findChar t '(').getD t.start ≤ t.stop := by
    cases hfind : src.findChar t '(' with
    | none => exact ⟨Nat.le_refl _, Nat.le_of_lt ht⟩
    | some p => exact ⟨(src.findChar_bounds hfind).1, Nat.le_of_lt (src.findChar_bounds hfind).2⟩
  exact hP.inside (arguments_failsAs hP hn _ hparen.2) ⟨hparen.1, Nat.le_refl _⟩

theorem dotted_failsAs (hP : Invariant src nested P) : (dotted src nested).FailsAs P := by
  refine hP.bounded fun t ht => ?_
  split
  · exact .ok _
  · exact hP.start (Nat.le_of_lt ht) trivial

theorem sliceBound_failsAs (hP : Invariant src nested P) : (sliceBound src).FailsAs P := fun _ hs =>
  .ite (fun _ => .ok _) fun _ => .map (number_failsAs hP _ hs) _

theorem slice_failsAs (hP : Invariant src nested P) : (slice src).FailsAs P := by
  refine hP.bounded fun t ht => ?_
  split
  · exact hP.start (Nat.le_of_lt ht) trivial
  · rename_i first hfirst
    have hf := src.findChar_bounds hfirst
    have hsecond : ∀ q, src.findChar ⟨first + 1, t.stop⟩ ':' = some q → first + 1 ≤ q ∧ q < t.stop :=
      fun q hq => src.findChar_bounds hq
    have hbound : ∀ a b, t.start ≤ a → a ≤ b → b ≤ t.stop → FailsOnly (P t) (sliceBound src ⟨a, b⟩) :=
      fun a b ha hab hb => hP.inside (sliceBound_failsAs hP ⟨a, b⟩ hab) ⟨ha, hb⟩
    simp only
    generalize src.findChar ⟨first + 1, t.stop⟩ ':' = second at *
    refine .bind (hbound _ _ (Nat.le_refl _) hf.1 (Nat.le_of_lt hf.2)) fun _ => .bind ?_ fun _ =>
      .bind ?_ fun _ => .ok _
    · cases second with
      | none => exact hbound _ _ (by omega) hf.2 (Nat.le_refl _)
      | some q => exact hbound _ _ (by omega) (hsecond q rfl).1 (Nat.le_of_lt (hsecond q rfl).2)
    · cases second with
      | none => exact hbound _ _ (Nat.le_of_lt ht) (Nat.le_refl _) (Nat.le_refl _)
      | some q =>
        have hq := hsecond q rfl
        exact hbound (q + 1) _ (by omega) hq.2 (Nat.le_refl _)

theorem bracketContent_failsAs (hP : Invariant src nested P) : (bracketContent src).FailsAs P := by
  refine hP.oneOf .content ?_
  simp only [Choice.rules, List.forall_mem_cons]
  exact ⟨(number_failsAs hP).map _, mark_failsAs hP, (slice_failsAs hP).map _, List.forall_mem_nil _⟩

theorem bracket_failsAs (hP : Invariant src nested P) (hn : nested.FailsAs P) : (bracket src nested).FailsAs P := by
  refine hP.bounded fun t ht => .ite (fun _ => hP.start (Nat.le_of_lt ht) trivial) fun _ =>
    .ite (fun _ => hP.fail (by omega) (by omega) trivial) fun hlen =>
      .ite (fun _ => .ok _) fun hlen' => .ite (fun _ => .map ?_ _) fun _ => ?_
  · simp only [Span.length] at hlen hlen'
    exact hP.inside (hn ⟨t.start + 2, t.stop - 1⟩ (by simp only; omega)) ⟨Nat.le_add_right _ _, Nat.sub_le _ _⟩
  · simp only [Span.length] at hlen
    exact hP.inside (bracketContent_failsAs hP t.inner (by simp only [Span.inner]; omega)) t.inner_inside

theorem indexedLeft_failsAs (hP : Invariant src nested P) : (indexedLeft src nested).FailsAs P := by
  refine hP.bounded fun t ht => ?_
  split
  · exact .ok _
  · exact hP.start (Nat.le_of_lt ht) trivial

theorem indexed_failsAs (hP : Invariant src nested P) (hn : nested.FailsAs P) : (indexed src nested).FailsAs P := by
  refine hP.bounded fun t ht => hP.oneOf .index ?_ t (Nat.le_of_lt ht)
  simp only [Choice.rules, List.forall_mem_cons]
  exact ⟨indexedLeft_failsAs hP, (bracket_failsAs hP hn).map _, List.forall_mem_nil _⟩

/-- **A form fails as the expressions inside it do.** -/
theorem all_failsAs (hP : Invariant src nested P) (hn : nested.FailsAs P) :
    ∀ rule ∈ all src nested, rule.FailsAs P := by
  simp only [all, List.forall_mem_cons]
  exact ⟨dotted_failsAs hP, indexed_failsAs hP hn, comparison_failsAs hP, joined_failsAs hP,
    ((identifier_failsAs hP).map _).map _, joined_failsAs hP, negated_failsAs hP hn, parenthesised_failsAs hP hn,
    (mark_failsAs hP).map _, (listOf_failsAs hP hn).map _, (hashOf_failsAs hP).map _, (literal_failsAs hP).map _,
    (call_failsAs hP hn).map _, joined_failsAs hP, (rawString_failsAs hP).map _, mark_failsAs hP,
    List.forall_mem_nil _⟩

end Form

/-! ### Where failures point -/

namespace Failure

/-- Whether a failure and all below it point into a range, none before the one it stands
below. -/
inductive Within (deep : Prop) : Span → Failure → Prop
  | leaf {s : Span} {rule : String} {reason : Reason} {position : Nat} : s.start ≤ position →
      position ≤ s.stop → reason.Allowed deep → Within deep s (.leaf rule reason position)
  | exhausted {s : Span} {rule : String} {position : Nat} {fs : List Failure} : s.start ≤ position →
      position ≤ s.stop → (∀ f ∈ fs, Within deep ⟨position, s.stop⟩ f) →
      Within deep s (.exhausted rule position fs)

namespace Within

variable {deep : Prop} {f : Failure}

theorem mono (h : Within deep r f) (hr : r.Inside s) : Within deep s f := by
  induction h generalizing s with
  | leaf hstart hstop hreason => exact .leaf (Nat.le_trans hr.1 hstart) (Nat.le_trans hstop hr.2) hreason
  | exhausted hstart hstop _ ih =>
    exact .exhausted (Nat.le_trans hr.1 hstart) (Nat.le_trans hstop hr.2) fun f hf =>
      ih f hf ⟨Nat.le_refl _, hr.2⟩

/-- **All causes of a failure point into the range.** -/
theorem causes (h : Within deep s f) :
    ∀ g ∈ f.causes, s.start ≤ g.position ∧ g.position ≤ s.stop ∧ g.reason.Allowed deep := by
  induction h with
  | leaf hstart hstop hreason =>
    intro g hg
    rcases mem_causes.mp hg with rfl | ⟨a, ha, -⟩
    · exact ⟨hstart, hstop, hreason⟩
    · exact nomatch ha
  | exhausted hstart hstop _ ih =>
    intro g hg
    rcases mem_causes.mp hg with rfl | ⟨a, ha, hg⟩
    · exact ⟨hstart, hstop, trivial⟩
    · obtain ⟨h1, h2, h3⟩ := ih a ha g hg
      exact ⟨Nat.le_trans hstart h1, h2, h3⟩

theorem start_le (h : Within deep s f) : s.start ≤ f.position := by
  cases h with
  | leaf hstart _ _ => exact hstart
  | exhausted hstart _ _ => exact hstart

/-- **No cause points before the one that it stands below.** -/
theorem ordered (h : Within deep s f) :
    ∀ g ∈ f.causes, ∀ a ∈ g.alternatives, g.position ≤ a.position := by
  induction h with
  | leaf _ _ _ =>
    intro g hg a ha
    rcases mem_causes.mp hg with rfl | ⟨b, hb, -⟩
    · exact nomatch ha
    · exact nomatch hb
  | exhausted _ _ hall ih =>
    intro g hg a ha
    rcases mem_causes.mp hg with rfl | ⟨b, hb, hg⟩
    · exact (hall a ha).start_le
    · exact ih b hb g hg a ha

/-- **Where failures point is an invariant.** -/
theorem invariant (nested : Rule Expr) : Invariant src nested (Within deep) where
  mono := mono
  leaf hstart hstop hreason := .leaf hstart hstop (hreason.imp False.elim)
  choice _ hs _ hfs := .exhausted (Nat.le_refl _) hs hfs

end Within

end Failure

end PathQuery
