/-
# Scopes are left as they were entered

The compiler notes each scope that it enters, with its depth, and each that it leaves. These events are
in balance if a stack of open scopes can follow them: the depth of a scope is how many are open when it
is entered, itself among them, only the innermost one is left, and none is open in the end
(`ScopeEvent.Balanced`).

The events of an expression are in balance also where it fails deep inside. It enters a scope for each
variable that it takes, so the scopes of a pipeline are its variables from left to right
(`Expr.compile_balanced`).

Key definitions: `ScopeEvent.after?`, `ScopeEvent.Restores`, `ScopeEvent.Balanced`,
`ScopeEvent.entered`, `Naming.Notes`.
Key theorems: `ScopeEvent.Restores.scope`, `Naming.Notes.scope`, `Expr.operations_balances`,
`Expr.compile_balanced`.
-/
import PathQuery.Proofs.Numbering

namespace PathQuery

namespace ScopeEvent

/-- The open scopes after an event, the innermost first. There is no answer if the event does not fit:
the depth of a scope is how many are open when it is entered, and only the innermost one is left. -/
def after? : List String → ScopeEvent → Option (List String)
  | scopes, .enter name depth => if depth = (name :: scopes).length then some (name :: scopes) else none
  | [], .leave _ => none
  | innermost :: scopes, .leave name => if name = innermost then some scopes else none

/-- Events that fit one after the other and leave the open scopes as they were. -/
def Restores (scopes : List String) (events : List ScopeEvent) : Prop := events.foldlM after? scopes = some scopes

/-- Events with no scope open before them and none after. -/
def Balanced (events : List ScopeEvent) : Prop := Restores [] events

instance (events : List ScopeEvent) : Decidable (Balanced events) :=
  inferInstanceAs (Decidable (events.foldlM after? [] = some []))

/-- Only the innermost scope can be left. -/
example : ¬ Balanced [.enter "x0" 1, .enter "x1" 2, .leave "x0", .leave "x1"] := by decide

/-- The scopes that events enter, in order. -/
def entered (events : List ScopeEvent) : List String :=
  events.filterMap fun
    | .enter name _ => some name
    | .leave _ => none

variable {scopes : List String} {events more : List ScopeEvent} {name : String}

theorem Restores.append (h : Restores scopes events) (h' : Restores scopes more) :
    Restores scopes (events ++ more) := by
  unfold Restores at h h' ⊢
  rw [List.foldlM_append, h]
  exact h'

/-- **A scope restores the scopes around it** if the events inside restore it on top of these. -/
theorem Restores.scope (h : Restores (name :: scopes) events) :
    Restores scopes (.enter name (scopes.length + 1) :: (events ++ [.leave name])) := by
  have henter : after? scopes (.enter name (scopes.length + 1)) = some (name :: scopes) := if_pos rfl
  have hleave : after? (name :: scopes) (.leave name) = some scopes := if_pos rfl
  unfold Restores at h ⊢
  rw [List.foldlM_cons, henter, Option.bind_eq_bind, Option.bind_some, List.foldlM_append, h,
    Option.bind_eq_bind, Option.bind_some, List.foldlM_cons, hleave]
  rfl

theorem entered_append : entered (events ++ more) = entered events ++ entered more := List.filterMap_append

theorem entered_scope {depth : Nat} :
    entered (.enter name depth :: (events ++ [.leave name])) = name :: entered events := by
  have hinside : entered (events ++ [.leave name]) = entered events := by
    rw [entered_append]
    exact List.append_nil _
  exact congrArg (name :: ·) hinside

end ScopeEvent

/-! ### What is noted meanwhile -/

/-- The events from one naming to a later one while so many scopes are open. They enter a scope for each
variable that is taken, and leave the open scopes as they were. -/
structure Naming.Notes (opened : Nat) (events : List ScopeEvent) (n n' : Naming) : Prop where
  before : n.Before n'
  noted : n'.events = n.events ++ events
  restores : ∀ scopes : List String, scopes.length = opened → ScopeEvent.Restores scopes events
  entered : ScopeEvent.entered events = n.upTo n'

namespace Naming.Notes

variable {opened : Nat} {events more : List ScopeEvent} {n n' n'' : Naming}

theorem refl (opened : Nat) (n : Naming) : n.Notes opened [] n where
  before := .refl n
  noted := (List.append_nil _).symm
  restores := fun _ _ => rfl
  entered := n.upTo_self.symm

theorem trans (h : n.Notes opened events n') (h' : n'.Notes opened more n'') :
    n.Notes opened (events ++ more) n'' where
  before := h.before.trans h'.before
  noted := by rw [h'.noted, h.noted, List.append_assoc]
  restores scopes hscopes := (h.restores scopes hscopes).append (h'.restores scopes hscopes)
  entered := by rw [ScopeEvent.entered_append, h.entered, h'.entered, h.before.upTo_append h'.before]

/-- **A scope is left as it was entered**: its two events stand around those from inside, where one
scope more is open. -/
theorem scope (h : (n.taken.note (.enter n.fresh (opened + 1))).Notes (opened + 1) events n') :
    n.Notes opened (.enter n.fresh (opened + 1) :: (events ++ [.leave n.fresh])) (n'.note (.leave n.fresh)) where
  before := ⟨h.before.stem, (Nat.le_succ _).trans h.before.next⟩
  noted := by
    have hinside : n'.events = n.events ++ [.enter n.fresh (opened + 1)] ++ events := h.noted
    rw [note, hinside, List.append_assoc, List.append_assoc]
    rfl
  restores scopes hscopes := by
    have hinside : ScopeEvent.Restores (n.fresh :: scopes) events :=
      h.restores _ (by rw [List.length_cons, hscopes])
    rw [← hscopes]
    exact hinside.scope
  entered := by
    rw [ScopeEvent.entered_scope, h.entered]
    exact fresh_cons_upTo _ h.before

end Naming.Notes

/-! ### The compiler -/

/-- Whatever the naming, a computation that starts with so many open scopes leaves those that it enters,
also if it fails. -/
def Balances {α : Type} (opened : Nat) (x : Compiler α) : Prop :=
  ∀ n : Naming, ∃ events, n.Notes opened events (x n).2

namespace Balances

variable {α β : Type} {opened : Nat}

theorem pure (a : α) : Balances opened (pure a) := fun n => ⟨[], .refl opened n⟩

theorem throw (e : CompileError) : Balances opened (throw e : Compiler α) := fun n => ⟨[], .refl opened n⟩

theorem bind {x : Compiler α} {f : α → Compiler β} (hx : Balances opened x) (hf : ∀ a, Balances opened (f a)) :
    Balances opened (x >>= f) := by
  intro n
  obtain ⟨events, hevents⟩ := hx n
  rcases hn : x n with ⟨result, n'⟩
  rw [hn] at hevents
  cases result with
  | error e =>
    rw [Stateful.bind_error hn]
    exact ⟨events, hevents⟩
  | ok a =>
    obtain ⟨more, hmore⟩ := hf a n'
    rw [Stateful.bind_ok hn]
    exact ⟨events ++ more, hevents.trans hmore⟩

theorem map {x : Compiler α} (hx : Balances opened x) (g : α → β) : Balances opened (do let a ← x; return g a) :=
  hx.bind fun _ => .pure _

/-- A scope is one more that is open for what stands in it. -/
theorem inScope {s : Scope} {body : Scope → Compiler α} (h : ∀ inner : Scope, Balances inner.depth (body inner)) :
    Balances s.depth (inScope s body) := by
  intro n
  obtain ⟨events, hevents⟩ := h (s.push n.fresh) (n.taken.note (.enter n.fresh (s.depth + 1)))
  exact ⟨_, Naming.Notes.scope hevents⟩

end Balances

mutual

/-- **The scopes of an expression are left as they were entered.** -/
theorem Expr.operations_balances (s : Scope) : ∀ e : Expr, Balances s.depth (e.operations s)
  | .selector sel => by
    rw [Expr.operations]
    exact sel.operations_balances s
  | .dot left sel => by
    rw [Expr.operations]
    exact (left.operations_balances s).bind fun _ => (sel.operations_balances s).map _
  | .index b => by
    rw [Expr.operations]
    exact b.operations_balances s
  | .indexOf left b => by
    rw [Expr.operations]
    exact (left.operations_balances s).bind fun _ => (b.operations_balances s).map _
  | .binary (.compare _) left right | .binary .or left right | .binary .and left right => by
    rw [Expr.operations]
    exact (left.operations_balances s).bind fun _ => (right.operations_balances s).map _
  | .binary .pipe _ _ => .throw _
  | .not e => by
    rw [Expr.operations]
    exact (e.operations_balances s).map _
  | .paren e => by
    rw [Expr.operations]
    exact e.operations_balances s
  | .literal _ | .raw _ => .pure _
  | .current => .throw _

/-- The same for a selector. -/
theorem Selector.operations_balances (s : Scope) : ∀ sel : Selector, Balances s.depth (sel.operations s)
  | .identifier _ | .star => .pure _
  | .list es => by
    rw [Selector.operations]
    exact (Expr.branches_balances s es).map _
  | .hash _ => .throw _
  | .call name arguments => by
    unfold Selector.operations
    split
    · split
      · rename_i e
        exact (e.operations_balances s).map _
      · exact .throw _
    · split
      · split
        · rename_i e e'
          exact (e.operations_balances s).bind fun _ => (e'.operations_balances s).map _
        · exact .throw _
      · exact .throw _

/-- The same for a bracket. -/
theorem Bracket.operations_balances (s : Scope) : ∀ b : Bracket, Balances s.depth (b.operations s)
  | .flatten | .number _ | .star => .pure _
  | .slice _ => .throw _
  | .filter e => by
    rw [Bracket.operations]
    exact (Balances.inScope fun inner => (e.operations_balances inner).map _).map _

/-- The same for the branches of a list. -/
theorem Expr.branches_balances (s : Scope) : ∀ es : List Expr, Balances s.depth (Expr.branches s es)
  | [] => .pure _
  | e :: es => by
    rw [Expr.branches]
    exact (Balances.inScope fun inner => (e.operations_balances inner).map _).bind fun _ =>
      (Expr.branches_balances s es).map _

end

/-- **Scopes are entered and left in balance**, whether an expression has a pipeline or fails half way.
It enters a scope for each variable that it takes, and these are the variables of its pipeline from
left to right. -/
theorem Expr.compile_balanced (e : Expr) (subject : String) (n : Naming) :
    ∃ events, (e.compile subject n).2.events = n.events ++ events ∧ ScopeEvent.Balanced events ∧
      ScopeEvent.entered events = n.upTo (e.compile subject n).2 ∧
        ∀ p, (e.compile subject n).1 = .ok p → ScopeEvent.entered events = p.binders := by
  have hcompile : Balances (Scope.root subject).depth (e.compile subject) := by
    rw [Expr.compile]
    exact (e.operations_balances (.root subject)).map _
  obtain ⟨events, hnotes⟩ := hcompile n
  obtain ⟨-, hbinders⟩ := e.compile_takes subject n
  refine ⟨events, hnotes.noted, hnotes.restores [] rfl, hnotes.entered, fun p hp => ?_⟩
  rw [hnotes.entered, hbinders p hp]

/-- Two branches, the first with a filter in it. -/
theorem Expr.compile_balanced_branches :
    let e : Expr := .selector (.list [.indexOf (.selector (.identifier "a")) (.filter (.selector (.identifier "b"))),
      .selector (.identifier "c")])
    let events : List ScopeEvent := [.enter "v7" 1, .enter "v8" 2, .leave "v8", .leave "v7", .enter "v9" 1, .leave "v9"]
    ∃ p, (e.compile "input" ⟨"v", 7, []⟩).1 = .ok p ∧ (e.compile "input" ⟨"v", 7, []⟩).2.events = events ∧
      ScopeEvent.Balanced events ∧ ScopeEvent.entered events = p.binders := by
  intro e events
  obtain ⟨noted, hnoted, hbalanced, -, hbinders⟩ := e.compile_balanced "input" ⟨"v", 7, []⟩
  obtain rfl : events = noted := hnoted
  exact ⟨_, rfl, rfl, hbalanced, hbinders _ rfl⟩

/-- The filter in the second branch fails. Its scope and that of the branch are left all the same. -/
example :
    let e : Expr := .selector (.list [.selector (.identifier "a"), .index (.filter .current)])
    (e.compile "input" (.start "x")).2.events =
      [.enter "x0" 1, .leave "x0", .enter "x1" 1, .enter "x2" 2, .leave "x2", .leave "x1"] := rfl

end PathQuery
