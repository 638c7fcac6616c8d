/-
# What pipelines read

A pipeline reads variables that are bound around it. Those of a filter and of a list bind a
variable of their own; all others read one that is in scope already. A run looks up no more than
that, so bindings that agree on the variables in scope give one result (`Pipeline.run_congr`).

The operations of an expression read the variable that it is compiled for, and what stands in a
filter or a list reads only what is bound there (`Expr.operations_readsOnly`).

Key definitions: `Pipeline.closedIn`, `Operation.closedIn`, `Operation.ReadsOnly`.
Key theorems: `Pipeline.run_congr`, `Operation.apply_congr`, `Expr.operations_readsOnly`,
`Expr.compile_closed`.
-/
import PathQuery.Pipeline.Run
import PathQuery.Proofs.Stateful

namespace PathQuery

mutual

/-- Whether a pipeline only reads variables in scope. -/
def Pipeline.closedIn (scope : List String) : Pipeline → Bool
  | .mk x ops => scope.contains x && Operation.allClosedIn scope ops

/-- Whether the pipelines of operations only read variables in scope. -/
def Operation.allClosedIn (scope : List String) : List Operation → Bool
  | [] => true
  | op :: ops => op.closedIn scope && Operation.allClosedIn scope ops

/-- Whether the pipelines of an operation only read variables in scope. -/
def Operation.closedIn (scope : List String) : Operation → Bool
  | .filter p => p.closedIn (p.subject :: scope)
  | .compare _ p | .or p | .and p | .constantOf p | .contains p => p.closedIn scope
  | .multiSelect ps => Pipeline.branchesClosedIn scope ps
  | _ => true

/-- Whether branches only read variables in scope and the one that each binds. -/
def Pipeline.branchesClosedIn (scope : List String) : List Pipeline → Bool
  | [] => true
  | p :: ps => p.closedIn (p.subject :: scope) && Pipeline.branchesClosedIn scope ps

end

/-- Bindings that give the variables in scope the same values. -/
def Bindings.AgreeOn (scope : List String) (b b' : Bindings) : Prop :=
  ∀ x, scope.contains x = true → Fields.lookup x b = Fields.lookup x b'

theorem Bindings.AgreeOn.bind {scope : List String} {b b' : Bindings} (h : b.AgreeOn scope b') (x : String)
    (v : Value) : Bindings.AgreeOn (x :: scope) ((x, v) :: b) ((x, v) :: b') := by
  intro y hy
  rw [Fields.lookup, Fields.lookup]
  by_cases hxy : x = y
  · rw [if_pos hxy, if_pos hxy]
  · rw [if_neg hxy, if_neg hxy]
    exact h y (by simpa [Ne.symm hxy] using hy)

section

variable {m : Type → Type} [Monad m] [MonadExceptOf EvalError m] {note : Step → m Unit}

mutual

/-- **A run depends on the variables in scope alone.** -/
theorem Pipeline.run_congr {scope : List String} {b b' : Bindings} : ∀ p : Pipeline,
    p.closedIn scope = true → b.AgreeOn scope b' → p.run note b = p.run note b'
  | .mk x ops, hp, h => by
    rw [Pipeline.closedIn, Bool.and_eq_true] at hp
    rw [Pipeline.run, Pipeline.run, h x hp.1]
    cases Fields.lookup x b' with
    | none => rfl
    | some v => simp only [Operation.applyAll_congr ops hp.2 h]

/-- The same for operations in a row. -/
theorem Operation.applyAll_congr {scope : List String} {b b' : Bindings} : ∀ ops : List Operation,
    Operation.allClosedIn scope ops = true → b.AgreeOn scope b' →
      Operation.applyAll note b ops = Operation.applyAll note b' ops
  | [], _, _ => rfl
  | op :: ops, hops, h => by
    rw [Operation.allClosedIn, Bool.and_eq_true] at hops
    funext c
    rw [Operation.applyAll, Operation.applyAll, Operation.apply_congr op hops.1 h, Operation.applyAll_congr ops hops.2 h]

/-- The same for an operation. -/
theorem Operation.apply_congr {scope : List String} {b b' : Bindings} : ∀ op : Operation,
    op.closedIn scope = true → b.AgreeOn scope b' → op.apply note b = op.apply note b'
  | .filter p, hop, h => by
    rw [Operation.closedIn] at hop
    have hp (v : Value) := Pipeline.run_congr p hop (h.bind p.subject v)
    funext v
    cases v with
    | array items => simp only [Operation.apply, hp]
    | _ => rfl
  | .compare _ p, hop, h | .or p, hop, h | .and p, hop, h | .constantOf p, hop, h | .contains p, hop, h => by
    rw [Operation.closedIn] at hop
    have hp := Pipeline.run_congr p hop h
    funext v
    rw [Operation.apply, Operation.apply, hp]
  | .multiSelect ps, hop, h => by
    rw [Operation.closedIn] at hop
    funext v
    rw [Operation.apply, Operation.apply, Pipeline.runBranches_congr ps hop h]
  | .field _, _, _ | .index _, _, _ | .not, _, _ | .constant _, _, _ | .length, _, _ => rfl
  | .flatten, _, _ | .wildcard, _, _ => by
    funext v
    cases v <;> rfl

/-- The same for branches. -/
theorem Pipeline.runBranches_congr {scope : List String} {b b' : Bindings} : ∀ ps : List Pipeline,
    Pipeline.branchesClosedIn scope ps = true → b.AgreeOn scope b' → ∀ {v},
      Pipeline.runBranches note b v ps = Pipeline.runBranches note b' v ps
  | [], _, _, _ => rfl
  | p :: ps, hps, h, v => by
    rw [Pipeline.branchesClosedIn, Bool.and_eq_true] at hps
    rw [Pipeline.runBranches, Pipeline.runBranches, Pipeline.run_congr p hps.1 (h.bind p.subject v),
      Pipeline.runBranches_congr ps hps.2 h]

end

end

/-! ### The pipelines of expressions -/

/-- Whether an operation only reads `x` from outside, and nothing if it distributes. -/
def Operation.ReadsOnly (x : String) (op : Operation) : Prop :=
  ∀ scope : List String, op.distributes = true ∨ scope.contains x = true → op.closedIn scope = true

theorem Operation.allClosedIn_iff {scope : List String} {ops : List Operation} :
    Operation.allClosedIn scope ops = true ↔ ∀ op ∈ ops, op.closedIn scope = true := by
  induction ops with
  | nil => exact ⟨nofun, fun _ => rfl⟩
  | cons op ops ih => rw [allClosedIn, Bool.and_eq_true, ih, List.forall_mem_cons]

theorem Pipeline.branchesClosedIn_iff {scope : List String} {ps : List Pipeline} :
    Pipeline.branchesClosedIn scope ps = true ↔ ∀ p ∈ ps, p.closedIn (p.subject :: scope) = true := by
  induction ps with
  | nil => exact ⟨nofun, fun _ => rfl⟩
  | cons p ps ih => rw [branchesClosedIn, Bool.and_eq_true, ih, List.forall_mem_cons]

/-- A pipeline whose operations only read its variable is closed where that is bound. -/
theorem Pipeline.closedIn_of_readsOnly {x : String} {ops : List Operation} {scope : List String}
    (h : ∀ op ∈ ops, op.ReadsOnly x) (hx : scope.contains x = true) : (Pipeline.mk x ops).closedIn scope = true := by
  rw [closedIn, Bool.and_eq_true]
  exact ⟨hx, Operation.allClosedIn_iff.2 fun op hop => h op hop scope (.inr hx)⟩

/-- An operation with a side that is a pipeline on the variable in scope. -/
theorem Operation.ReadsOnly.side {x : String} {ops : List Operation} {op : Operation}
    (h : ∀ op ∈ ops, op.ReadsOnly x) (hop : op.distributes = false)
    (hside : ∀ scope, op.closedIn scope = (Pipeline.mk x ops).closedIn scope) : op.ReadsOnly x := by
  intro scope hscope
  rw [hside]
  exact Pipeline.closedIn_of_readsOnly h (hscope.resolve_left (by rw [hop]; nofun))

/-- A body with a scope of its own is closed wherever its variable is bound. -/
theorem Expr.scoped_readsOnly {e : Expr} {s : Scope}
    (h : ∀ inner : Scope, Ensures (fun ops => ∀ op ∈ ops, op.ReadsOnly inner.subject) (e.operations inner)) :
    Ensures (fun p => ∀ scope : List String, p.closedIn (p.subject :: scope) = true)
      (inScope s fun inner => do
        let ops ← e.operations inner
        return Pipeline.mk inner.subject ops) := by
  refine .inScope fun inner => (h inner).bind fun ops hops => .pure fun scope => ?_
  exact Pipeline.closedIn_of_readsOnly hops List.elem_cons_self

mutual

/-- **The operations of an expression read the variable of their scope**, and those that distribute
read only what they bind. -/
theorem Expr.operations_readsOnly (s : Scope) : ∀ e : Expr,
    Ensures (fun ops => ∀ op ∈ ops, op.ReadsOnly s.subject) (e.operations s)
  | .selector sel => by
    rw [Expr.operations]
    exact sel.operations_readsOnly s
  | .dot left sel => by
    rw [Expr.operations]
    refine (left.operations_readsOnly s).bind fun ops hops => ?_
    refine (sel.operations_readsOnly s).bind fun more hmore => ?_
    exact .pure (List.forall_mem_append.2 ⟨hops, hmore⟩)
  | .index b => by
    rw [Expr.operations]
    exact b.operations_readsOnly s
  | .indexOf left b => by
    rw [Expr.operations]
    refine (left.operations_readsOnly s).bind fun ops hops => ?_
    refine (b.operations_readsOnly s).bind fun more hmore => ?_
    exact .pure (List.forall_mem_append.2 ⟨hops, hmore⟩)
  | .binary (.compare _) left right | .binary .or left right | .binary .and left right => by
    rw [Expr.operations]
    refine (left.operations_readsOnly s).bind fun ops hops => ?_
    refine (right.operations_readsOnly s).bind fun other hother => .pure ?_
    exact List.forall_mem_append.2 ⟨hops, List.forall_mem_singleton.2 (.side hother rfl fun _ => rfl)⟩
  | .binary .pipe _ _ => .throw _
  | .not e => by
    rw [Expr.operations]
    refine (e.operations_readsOnly s).bind fun ops hops => .pure (List.forall_mem_singleton.2 ?_)
    have hnot : ∀ op ∈ ops ++ [.not], op.ReadsOnly s.subject :=
      List.forall_mem_append.2 ⟨hops, List.forall_mem_singleton.2 fun _ _ => rfl⟩
    exact .side hnot rfl fun _ => rfl
  | .paren e => by
    rw [Expr.operations]
    exact e.operations_readsOnly s
  | .literal _ | .raw _ => .pure (List.forall_mem_singleton.2 fun _ _ => rfl)
  | .current => .throw _

/-- The same for a selector. -/
theorem Selector.operations_readsOnly (s : Scope) : ∀ sel : Selector,
    Ensures (fun ops => ∀ op ∈ ops, op.ReadsOnly s.subject) (sel.operations s)
  | .identifier _ | .star => .pure (List.forall_mem_singleton.2 fun _ _ => rfl)
  | .list es => by
    rw [Selector.operations]
    refine (Expr.branches_closed s es).bind fun ps hps => .pure (List.forall_mem_singleton.2 fun scope _ => ?_)
    exact Pipeline.branchesClosedIn_iff.2 fun p hp => hps p hp scope
  | .hash _ => .throw _
  | .call name arguments => by
    unfold Selector.operations
    split
    · split
      · rename_i e
        refine (e.operations_readsOnly s).bind fun ops hops => .pure ?_
        exact List.forall_mem_append.2 ⟨hops, List.forall_mem_singleton.2 fun _ _ => rfl⟩
      · exact .throw _
    · split
      · split
        · rename_i e e'
          refine (e.operations_readsOnly s).bind fun ops hops => ?_
          refine (e'.operations_readsOnly s).bind fun other hother => .pure ?_
          exact List.forall_mem_append.2 ⟨hops, List.forall_mem_singleton.2 (.side hother rfl fun _ => rfl)⟩
        · exact .throw _
      · exact .throw _

/-- The same for a bracket. -/
theorem Bracket.operations_readsOnly (s : Scope) : ∀ b : Bracket,
    Ensures (fun ops => ∀ op ∈ ops, op.ReadsOnly s.subject) (b.operations s)
  | .flatten | .number _ | .star => .pure (List.forall_mem_singleton.2 fun _ _ => rfl)
  | .slice _ => .throw _
  | .filter e => by
    rw [Bracket.operations]
    refine (Expr.scoped_readsOnly fun inner => e.operations_readsOnly inner).bind fun p hp => ?_
    exact .pure (List.forall_mem_singleton.2 fun scope _ => hp scope)

/-- The branches of a list are closed wherever their variables are bound. -/
theorem Expr.branches_closed (s : Scope) : ∀ es : List Expr,
    Ensures (fun ps => ∀ p ∈ ps, ∀ scope : List String, p.closedIn (p.subject :: scope) = true) (Expr.branches s es)
  | [] => .pure nofun
  | e :: es => by
    rw [Expr.branches]
    refine (Expr.scoped_readsOnly fun inner => e.operations_readsOnly inner).bind fun p hp => ?_
    refine (Expr.branches_closed s es).bind fun ps hps => .pure (List.forall_mem_cons.2 ⟨hp, hps⟩)

end

/-- The pipeline of an expression is closed where its variable is bound. -/
theorem Expr.compile_closed (e : Expr) (subject : String) :
    Ensures (fun p => p.closedIn [p.subject] = true) (e.compile subject) := by
  rw [Expr.compile]
  refine (e.operations_readsOnly (.root subject)).bind fun ops hops => .pure ?_
  exact Pipeline.closedIn_of_readsOnly hops List.elem_cons_self

end PathQuery
