/-
# How variables are numbered

A pipeline binds a variable for each filter and each branch of a list in it. Read from left to
right these are the names that the compiler made, in the order in which it made them: the stem with
numbers in a row, none left out (`Expr.operations_takes`). An expression that fails has taken
numbers too, and they are not taken again. So the variables of a whole session are all distinct,
and up to where its numbers start an expression fares as in a new session
(`Session.compileAll_numbered`, and `Session.steps_nodup` for texts).

Key definitions: `Pipeline.binders`, `Takes`, `Session.Numbers`.
Key theorems: `Expr.operations_takes`, `Session.compileAll_numbered`, `Session.steps_nodup`.
-/
import Mathlib.Data.List.Intervals
import Mathlib.Data.List.Nodup
import PathQuery.Proofs.Outcome
import PathQuery.Proofs.Renaming
import PathQuery.Query

namespace PathQuery

mutual

/-- The variables that a pipeline binds, from left to right. -/
def Pipeline.binders : Pipeline → List String
  | .mk _ ops => Operation.allBinders ops

/-- The variables that an operation binds. -/
def Operation.binders : Operation → List String
  | .filter p => p.subject :: p.binders
  | .compare _ p | .or p | .and p | .constantOf p | .contains p => p.binders
  | .multiSelect ps => Pipeline.branchBinders ps
  | .field _ | .index _ | .flatten | .wildcard | .not | .constant _ | .length => []

/-- The same for operations in a row. -/
def Operation.allBinders : List Operation → List String
  | [] => []
  | op :: ops => op.binders ++ Operation.allBinders ops

/-- The same for branches. -/
def Pipeline.branchBinders : List Pipeline → List String
  | [] => []
  | p :: ps => p.subject :: p.binders ++ Pipeline.branchBinders ps

end

theorem Operation.allBinders_append (ops more : List Operation) :
    allBinders (ops ++ more) = allBinders ops ++ allBinders more := by
  induction ops with
  | nil => rfl
  | cons op ops ih => rw [List.cons_append, allBinders, allBinders, ih, List.append_assoc]

theorem Operation.allBinders_singleton (op : Operation) : allBinders [op] = op.binders := List.append_nil _

/-! ### Names to come -/

/-- Different numbers make different names. -/
theorem Naming.numbered_injective (stem : String) : Function.Injective fun i : Nat => stem ++ toString i := by
  intro i j h
  have hdigits : Nat.toDigits 10 i = Nat.toDigits 10 j := by
    rw [← Nat.toList_repr, ← Nat.toList_repr]
    exact congrArg String.toList ((String.append_right_inj stem).1 h)
  rw [← Nat.ofDigitChars_ten_toDigits (n := i), hdigits, Nat.ofDigitChars_ten_toDigits]

namespace Naming

/-- The variables that were taken from one naming to a later one, in order. -/
def upTo (n n' : Naming) : List String := (List.Ico n.next n'.next).map fun i => n.stem ++ toString i

theorem upTo_nodup (n n' : Naming) : (n.upTo n').Nodup :=
  List.Nodup.map (numbered_injective n.stem) (List.Ico.nodup _ _)

theorem upTo_self (n : Naming) : n.upTo n = [] := by rw [upTo, List.Ico.self_empty, List.map_nil]

/-- A naming and a later one: new variables may have been taken meanwhile. -/
structure Before (n n' : Naming) : Prop where
  stem : n'.stem = n.stem
  next : n.next ≤ n'.next

namespace Before

variable {n n' n'' : Naming}

theorem refl (n : Naming) : n.Before n := ⟨rfl, Nat.le_refl _⟩

theorem trans (h : n.Before n') (h' : n'.Before n'') : n.Before n'' := ⟨h'.stem.trans h.stem, h.next.trans h'.next⟩

theorem upTo_append (h : n.Before n') (h' : n'.Before n'') : n.upTo n' ++ n'.upTo n'' = n.upTo n'' := by
  rw [upTo, upTo, upTo, h.stem, ← List.map_append, List.Ico.append_consecutive h.next h'.next]

end Before

/-- The first variable that is taken. -/
theorem fresh_cons_upTo {n n' : Naming} (e : ScopeEvent) (h : (n.taken.note e).Before n') :
    n.fresh :: (n.taken.note e).upTo n' = n.upTo n' := by
  have hfirst : n.upTo (n.taken.note e) = [n.fresh] := congrArg (List.map _) List.Ico.succ_singleton
  have hbefore : n.Before (n.taken.note e) := ⟨rfl, Nat.le_succ _⟩
  rw [← hbefore.upTo_append h, hfirst]
  rfl

end Naming

/-! ### What a compilation takes -/

/-- Whatever the naming, a computation takes new variables, also if it fails. What it gives is related
by `P` to those. -/
def Takes {α : Type} (P : α → List String → Prop) (x : Compiler α) : Prop :=
  ∀ n, n.Before (x n).2 ∧ ∀ a, (x n).1 = .ok a → P a (n.upTo (x n).2)

namespace Takes

variable {α β : Type} {P : α → List String → Prop} {R : β → List String → Prop}

theorem pure {a : α} (h : P a []) : Takes P (pure a) := by
  refine fun n => ⟨.refl n, fun b hb => ?_⟩
  cases hb
  exact n.upTo_self ▸ h

theorem throw (e : CompileError) : Takes P (throw e) := fun n => ⟨.refl n, fun _ h => nomatch h⟩

theorem bind {x : Compiler α} {f : α → Compiler β} (hx : Takes P x)
    (hf : ∀ a names, P a names → Takes (fun b more => R b (names ++ more)) (f a)) : Takes R (x >>= f) := by
  intro n
  obtain ⟨hbefore, hgives⟩ := hx n
  rcases hn : x n with ⟨result, n'⟩
  rw [hn] at hbefore hgives
  cases result with
  | error e =>
    rw [Stateful.bind_error hn]
    exact ⟨hbefore, fun _ h => nomatch h⟩
  | ok a =>
    obtain ⟨hbefore', hgives'⟩ := hf a _ (hgives a rfl) n'
    rw [Stateful.bind_ok hn]
    refine ⟨hbefore.trans hbefore', fun b hb => ?_⟩
    rw [← hbefore.upTo_append hbefore']
    exact hgives' b hb

theorem map {x : Compiler α} {g : α → β} (hx : Takes P x) (hg : ∀ a names, P a names → R (g a) names) :
    Takes R (do let a ← x; return g a) :=
  hx.bind fun a names h => .pure ((List.append_nil names).symm ▸ hg a names h)

/-- A scope takes its variable before those inside. -/
theorem inScope {s : Scope} {body : Scope → Compiler α}
    (h : ∀ inner : Scope, Takes (fun a names => P a (inner.subject :: names)) (body inner)) :
    Takes P (inScope s body) := by
  intro n
  obtain ⟨hbefore, hgives⟩ := h (s.push n.fresh) (n.taken.note (.enter n.fresh (s.push n.fresh).depth))
  refine ⟨⟨hbefore.stem, (Nat.le_succ _).trans hbefore.next⟩, fun a ha => ?_⟩
  have hnames : P a (n.fresh :: Naming.upTo _ _) := hgives a ha
  rw [Naming.fresh_cons_upTo _ hbefore] at hnames
  exact hnames

end Takes

/-- Operations that bind these variables. -/
def Operation.Bind (ops : List Operation) (names : List String) : Prop := allBinders ops = names

namespace Operation.Bind

variable {ops others : List Operation} {names more : List String}

theorem append (h : Bind ops names) (h' : Bind others more) : Bind (ops ++ others) (names ++ more) := by
  rw [Bind, allBinders_append, h, h']

theorem singleton {op : Operation} (h : op.binders = names) : Bind [op] names := by
  rw [Bind, allBinders_singleton, h]

/-- One more operation that binds nothing. -/
theorem snoc {op : Operation} (h : Bind ops names) (hop : op.binders = []) : Bind (ops ++ [op]) names := by
  rw [← List.append_nil names]
  exact h.append (singleton hop)

/-- One more operation that has a side. -/
theorem side {op : Operation} {x : String} (h : Bind ops names) (h' : Bind others more)
    (hop : op.binders = (Pipeline.mk x others).binders) : Bind (ops ++ [op]) (names ++ more) :=
  h.append (singleton (hop.trans h'))

end Operation.Bind

/-- What a body with a scope of its own takes. -/
theorem Expr.scoped_takes {e : Expr} {s : Scope} (h : ∀ inner : Scope, Takes Operation.Bind (e.operations inner)) :
    Takes (fun p names => p.subject :: p.binders = names)
      (inScope s fun inner => do
        let ops ← e.operations inner
        return Pipeline.mk inner.subject ops) :=
  .inScope fun inner => (h inner).map fun _ _ hops => congrArg (inner.subject :: ·) hops

mutual

/-- **The operations of an expression bind the variables that it takes**, in the order in which it
takes them. -/
theorem Expr.operations_takes (s : Scope) : ∀ e : Expr, Takes Operation.Bind (e.operations s)
  | .selector sel => by
    rw [Expr.operations]
    exact sel.operations_takes s
  | .dot left sel => by
    rw [Expr.operations]
    exact (left.operations_takes s).bind fun _ _ hops => (sel.operations_takes s).map fun _ _ hmore => hops.append hmore
  | .index b => by
    rw [Expr.operations]
    exact b.operations_takes s
  | .indexOf left b => by
    rw [Expr.operations]
    exact (left.operations_takes s).bind fun _ _ hops => (b.operations_takes s).map fun _ _ hmore => hops.append hmore
  | .binary (.compare _) left right | .binary .or left right | .binary .and left right => by
    rw [Expr.operations]
    refine (left.operations_takes s).bind fun _ _ hops => ?_
    exact (right.operations_takes s).map fun _ _ hother => hops.side (x := s.subject) hother rfl
  | .binary .pipe _ _ => .throw _
  | .not e => by
    rw [Expr.operations]
    exact (e.operations_takes s).map fun _ _ hops => .singleton (hops.snoc rfl)
  | .paren e => by
    rw [Expr.operations]
    exact e.operations_takes s
  | .literal _ | .raw _ => .pure rfl
  | .current => .throw _

/-- The same for a selector. -/
theorem Selector.operations_takes (s : Scope) : ∀ sel : Selector, Takes Operation.Bind (sel.operations s)
  | .identifier _ | .star => .pure rfl
  | .list es => by
    rw [Selector.operations]
    exact (Expr.branches_takes s es).map fun _ _ hps => .singleton hps
  | .hash _ => .throw _
  | .call name arguments => by
    unfold Selector.operations
    split
    · split
      · rename_i e
        exact (e.operations_takes s).map fun _ _ hops => hops.snoc rfl
      · exact .throw _
    · split
      · split
        · rename_i e e'
          refine (e.operations_takes s).bind fun _ _ hops => ?_
          exact (e'.operations_takes s).map fun _ _ hother => hops.side (x := s.subject) hother rfl
        · exact .throw _
      · exact .throw _

/-- The same for a bracket. -/
theorem Bracket.operations_takes (s : Scope) : ∀ b : Bracket, Takes Operation.Bind (b.operations s)
  | .flatten | .number _ | .star => .pure rfl
  | .slice _ => .throw _
  | .filter e => by
    rw [Bracket.operations]
    exact (Expr.scoped_takes fun inner => e.operations_takes inner).map fun _ _ hp => .singleton hp

/-- The same for the branches of a list. -/
theorem Expr.branches_takes (s : Scope) : ∀ es : List Expr,
    Takes (fun ps names => Pipeline.branchBinders ps = names) (Expr.branches s es)
  | [] => .pure rfl
  | e :: es => by
    rw [Expr.branches]
    refine (Expr.scoped_takes fun inner => e.operations_takes inner).bind fun p names hp => ?_
    refine (Expr.branches_takes s es).map fun ps more hps => ?_
    rw [Pipeline.branchBinders, hp, hps]

end

/-- The pipeline of an expression binds the variables that were taken for it. -/
theorem Expr.compile_takes (e : Expr) (subject : String) :
    Takes (fun p names => p.binders = names) (e.compile subject) := by
  rw [Expr.compile]
  exact (e.operations_takes (.root subject)).map fun _ _ hops => hops

/-! ### Sessions -/

namespace Session

/-- The outcomes of several expressions in turn, each with what it reads, and the session after them. -/
def compileAll (s : Session) : List (Expr × String) → List (Except CompileError Pipeline) × Session
  | [] => ([], s)
  | (e, subject) :: rest =>
    let (result, s) := s.compile e subject
    let (results, s) := s.compileAll rest
    (result :: results, s)

/-- The variables that the pipelines of some outcomes bind. -/
def bound {ε : Type} (results : List (Except ε Pipeline)) : List String :=
  results.flatMap fun
    | .ok p => p.binders
    | .error _ => []

/-- A name with a number, and the one with the number `offset` further on. -/
def Offset (stem : String) (offset : Nat) (x y : String) : Prop :=
  ∃ i, x = stem ++ toString i ∧ y = stem ++ toString (offset + i)

/-- How one more expression fares in a session: which variables it binds, and what it has to do with
what a new session of the same stem makes of it. -/
structure Numbers (s : Session) (e : Expr) (subject : String) : Prop where
  /-- Its variables have the numbers from the one that was next up to the one that is next now. -/
  binders : ∀ p, (s.compile e subject).1 = .ok p →
    p.binders = (List.Ico s.naming.next (s.compile e subject).2.naming.next).map fun i => s.naming.stem ++ toString i
  /-- It takes as many numbers as in a new session, whether it fails or not. -/
  next : (s.compile e subject).2.naming.next =
    s.naming.next + ((start s.limits s.naming.stem).compile e subject).2.naming.next
  /-- It has the error that it has in a new session, or else the same pipeline up to its numbers. -/
  outcome : Alike (Pipeline.Renamed (Offset s.naming.stem s.naming.next) [(subject, subject)])
    ((start s.limits s.naming.stem).compile e subject).1 (s.compile e subject).1

/-- Two namings with a stem, of which one is ahead of the other. -/
theorem Offset.inStep (stem : String) (offset : Nat) : Naming.InStep (Offset stem offset) fun n n' =>
    n.stem = stem ∧ n'.stem = stem ∧ n'.next = offset + n.next where
  fresh := fun ⟨hstem, hstem', hnext⟩ => ⟨_, by rw [Naming.fresh, hstem], by rw [Naming.fresh, hstem', hnext]⟩
  taken := fun ⟨hstem, hstem', hnext⟩ => ⟨hstem, hstem', congrArg (· + 1) hnext⟩
  note := fun _ _ h => h

theorem numbers (s : Session) (e : Expr) (subject : String) : s.Numbers e subject := by
  obtain ⟨houtcome, _, _, hnext⟩ := e.compile_renamed (Offset.inStep s.naming.stem s.naming.next) subject subject
    (.start s.naming.stem) s.naming ⟨rfl, rfl, rfl⟩
  exact ⟨(e.compile_takes subject s.naming).2, hnext, houtcome⟩

/-- Outcomes that bind variables which were taken from one naming to a later one, each once at most. -/
structure Bind {ε : Type} (results : List (Except ε Pipeline)) (n n' : Naming) : Prop where
  before : n.Before n'
  names : (bound results).Sublist (n.upTo n')

namespace Bind

variable {ε : Type} {results : List (Except ε Pipeline)} {n n' n'' : Naming}

theorem nodup (h : Bind results n n') : (bound results).Nodup := h.names.nodup (n.upTo_nodup n')

theorem nil (n : Naming) : Bind ([] : List (Except ε Pipeline)) n n := ⟨.refl n, List.nil_sublist _⟩

/-- An outcome before others. The variables that were taken for an error are left out. -/
theorem cons {result : Except ε Pipeline} (hbefore : n.Before n')
    (hresult : ∀ p, result = .ok p → p.binders = n.upTo n') (h : Bind results n' n'') :
    Bind (result :: results) n n'' := by
  refine ⟨hbefore.trans h.before, ?_⟩
  rw [← hbefore.upTo_append h.before, bound, List.flatMap_cons]
  cases result with
  | error e => exact h.names.trans (List.sublist_append_right _ _)
  | ok p => exact hresult p rfl ▸ h.names.append_left _

end Bind

/-- The pipelines of a session bind variables that the session takes. -/
theorem compileAll_bind (calls : List (Expr × String)) (s : Session) :
    Bind (s.compileAll calls).1 s.naming (s.compileAll calls).2.naming := by
  induction calls generalizing s with
  | nil => exact .nil s.naming
  | cons call calls ih =>
    obtain ⟨hbefore, hbinders⟩ := call.1.compile_takes call.2 s.naming
    exact .cons hbefore hbinders (ih (s.compile call.1 call.2).2)

/-- A text takes variables for its pipeline if it is an expression, and else none. -/
theorem step_binders (s : Session) (text subject : String) : s.naming.Before (s.step text subject).2.naming ∧
    ∀ p, (s.step text subject).1 = .ok p → p.binders = s.naming.upTo (s.step text subject).2.naming := by
  rw [step]
  split
  case h_1 => exact ⟨.refl _, nofun⟩
  case h_2 e _ =>
    obtain ⟨hbefore, hbinders⟩ := e.compile_takes subject s.naming
    exact ⟨hbefore, fun p hp => hbinders p (mapError_eq_ok.1 hp)⟩

theorem steps_bind (texts : List (String × String)) (s : Session) : ∃ n, Bind (s.steps texts) s.naming n := by
  induction texts generalizing s with
  | nil => exact ⟨s.naming, .nil s.naming⟩
  | cons text texts ih =>
    obtain ⟨hbefore, hbinders⟩ := s.step_binders text.1 text.2
    obtain ⟨n, hrest⟩ := ih (s.step text.1 text.2).2
    exact ⟨n, .cons hbefore hbinders hrest⟩

/-- **The variables of a session of texts are all distinct.** -/
theorem steps_nodup (s : Session) (texts : List (String × String)) : (bound (s.steps texts)).Nodup :=
  (steps_bind texts s).elim fun _ h => h.nodup

/-- **The variables of a session are numbered without gaps, each once.** Those of all its pipelines
are distinct. After any calls, whether these failed or not, the stem is what it was, and one more
call goes on with the numbers and fares as in a new session. -/
theorem compileAll_numbered (s : Session) (calls : List (Expr × String)) :
    (bound (s.compileAll calls).1).Nodup ∧ (s.compileAll calls).2.naming.stem = s.naming.stem ∧
      ∀ e subject, (s.compileAll calls).2.Numbers e subject :=
  have hbind := compileAll_bind calls s
  ⟨hbind.nodup, hbind.before.stem, numbers _⟩

/-- The expression `[a[?b], @]` fails when three variables are taken. The next one binds the fourth. -/
theorem compileAll_numbered_failed :
    let calls : List (Expr × String) := [(.selector (.list [.indexOf (.selector (.identifier "a"))
      (.filter (.selector (.identifier "b"))), .current]), "input")]
    let e : Expr := .index (.filter (.selector (.identifier "c")))
    (usual.compileAll calls).1 = [.error (.unsupported .currentNode)] ∧
      ∃ p, ((usual.compileAll calls).2.compile e "x0").1 = .ok p ∧ p.binders = ["x3"] := by
  intro calls e
  obtain ⟨-, -, hnumbers⟩ := compileAll_numbered usual calls
  refine ⟨rfl, _, rfl, ((hnumbers e "x0").binders _ rfl).trans ?_⟩
  decide

end Session

end PathQuery
