/-
# Pipelines that differ in names

Two pipelines are the same up to names if they have the same operations, and where one reads a
variable the other reads its counterpart: the variable that was bound at the same place
(`Pipeline.Renamed`). An inner variable hides an outer one of its name, on either side. Such
pipelines take the same steps, with the same results (`Pipeline.run_renamed`).

An expression is compiled to pipelines that are the same up to names, whatever the variable that it
reads and the names that were made before (`Expr.operations_renamed`). So names never matter
(`Expr.compile_anyNames`).

Key definitions: `Counterpart`, `Pipeline.Renamed`.
Key theorems: `Pipeline.run_renamed`, `Expr.operations_renamed`, `Expr.compile_anyNames`.
-/
import PathQuery.Log
import PathQuery.Proofs.Stateful

namespace PathQuery

/-- Two variables that were bound at the same place, innermost first, and are not hidden since. -/
def Counterpart : List (String × String) → String → String → Prop
  | [], _, _ => False
  | (a, b) :: scope, x, y => (a = x ∧ b = y) ∨ (a ≠ x ∧ b ≠ y ∧ Counterpart scope x y)

mutual

/-- The same up to names, in a scope of counterparts. Variables that are bound at the same place are
related by `N`. -/
inductive Pipeline.Renamed (N : String → String → Prop) : List (String × String) → Pipeline → Pipeline → Prop
  | mk {scope : List (String × String)} {x y : String} {ops oqs : List Operation} :
    Counterpart scope x y → Operation.RenamedAll N scope ops oqs → Pipeline.Renamed N scope (.mk x ops) (.mk y oqs)

/-- The same for operations in a row. -/
inductive Operation.RenamedAll (N : String → String → Prop) :
    List (String × String) → List Operation → List Operation → Prop
  | nil {scope : List (String × String)} : Operation.RenamedAll N scope [] []
  | cons {scope : List (String × String)} {op oq : Operation} {ops oqs : List Operation} :
    Operation.Renamed N scope op oq → Operation.RenamedAll N scope ops oqs →
      Operation.RenamedAll N scope (op :: ops) (oq :: oqs)

/-- The same for an operation. -/
inductive Operation.Renamed (N : String → String → Prop) : List (String × String) → Operation → Operation → Prop
  | field {scope : List (String × String)} (name : String) : Operation.Renamed N scope (.field name) (.field name)
  | index {scope : List (String × String)} (n : Int64) : Operation.Renamed N scope (.index n) (.index n)
  | flatten {scope : List (String × String)} : Operation.Renamed N scope .flatten .flatten
  | wildcard {scope : List (String × String)} : Operation.Renamed N scope .wildcard .wildcard
  | filter {scope : List (String × String)} {p q : Pipeline} : N p.subject q.subject →
    Pipeline.Renamed N ((p.subject, q.subject) :: scope) p q → Operation.Renamed N scope (.filter p) (.filter q)
  | compare {scope : List (String × String)} {p q : Pipeline} (c : Comparator) : Pipeline.Renamed N scope p q →
    Operation.Renamed N scope (.compare c p) (.compare c q)
  | or {scope : List (String × String)} {p q : Pipeline} : Pipeline.Renamed N scope p q →
    Operation.Renamed N scope (.or p) (.or q)
  | and {scope : List (String × String)} {p q : Pipeline} : Pipeline.Renamed N scope p q →
    Operation.Renamed N scope (.and p) (.and q)
  | not {scope : List (String × String)} : Operation.Renamed N scope .not .not
  | constant {scope : List (String × String)} (v : Value) : Operation.Renamed N scope (.constant v) (.constant v)
  | constantOf {scope : List (String × String)} {p q : Pipeline} : Pipeline.Renamed N scope p q →
    Operation.Renamed N scope (.constantOf p) (.constantOf q)
  | length {scope : List (String × String)} : Operation.Renamed N scope .length .length
  | contains {scope : List (String × String)} {p q : Pipeline} : Pipeline.Renamed N scope p q →
    Operation.Renamed N scope (.contains p) (.contains q)
  | multiSelect {scope : List (String × String)} {ps qs : List Pipeline} : Pipeline.RenamedAll N scope ps qs →
    Operation.Renamed N scope (.multiSelect ps) (.multiSelect qs)

/-- The same for branches. -/
inductive Pipeline.RenamedAll (N : String → String → Prop) :
    List (String × String) → List Pipeline → List Pipeline → Prop
  | nil {scope : List (String × String)} : Pipeline.RenamedAll N scope [] []
  | cons {scope : List (String × String)} {p q : Pipeline} {ps qs : List Pipeline} : N p.subject q.subject →
    Pipeline.Renamed N ((p.subject, q.subject) :: scope) p q → Pipeline.RenamedAll N scope ps qs →
      Pipeline.RenamedAll N scope (p :: ps) (q :: qs)

end

variable {N : String → String → Prop} {scope : List (String × String)}

theorem Operation.RenamedAll.append {ops oqs more more' : List Operation} (h : RenamedAll N scope ops oqs)
    (h' : RenamedAll N scope more more') : RenamedAll N scope (ops ++ more) (oqs ++ more') := by
  induction ops generalizing oqs with
  | nil =>
    cases h
    exact h'
  | cons op ops ih =>
    cases h with
    | cons hop hops => exact .cons hop (ih hops)

/-! ### Runs -/

/-- Bindings that give counterparts the same value. -/
def Bindings.Match (scope : List (String × String)) (b b' : Bindings) : Prop :=
  ∀ x y, Counterpart scope x y → ∃ v, Fields.lookup x b = some v ∧ Fields.lookup y b' = some v

theorem Bindings.Match.bind {b b' : Bindings} (h : b.Match scope b') (x y : String) (v : Value) :
    Bindings.Match ((x, y) :: scope) ((x, v) :: b) ((y, v) :: b') := by
  rintro a c (⟨rfl, rfl⟩ | ⟨hx, hy, hac⟩)
  · exact ⟨v, if_pos rfl, if_pos rfl⟩
  · rw [Fields.lookup, Fields.lookup, if_neg hx, if_neg hy]
    exact h a c hac

section

variable {m : Type → Type} [Monad m] {note : Step → m Unit}

theorem Operation.Renamed.applyTo {op oq : Operation} (h : op.Renamed N scope oq) :
    op.applyTo note = oq.applyTo note := by
  cases h <;> rfl

variable [MonadExceptOf EvalError m]

mutual

/-- **Names make no difference to a run**, whatever it does with its steps. -/
theorem Pipeline.run_renamed {scope : List (String × String)} {b b' : Bindings} : ∀ (p : Pipeline) {q : Pipeline},
    p.Renamed N scope q → b.Match scope b' → p.run note b = q.run note b'
  | .mk x ops, _, .mk hx hops, hb => by
    obtain ⟨v, hv, hv'⟩ := hb _ _ hx
    rw [Pipeline.run, Pipeline.run, hv, hv']
    simp only [Operation.applyAll_renamed ops hops hb]

/-- The same for operations in a row. -/
theorem Operation.applyAll_renamed {scope : List (String × String)} {b b' : Bindings} :
    ∀ (ops : List Operation) {oqs : List Operation}, Operation.RenamedAll N scope ops oqs → b.Match scope b' →
      Operation.applyAll note b ops = Operation.applyAll note b' oqs
  | [], _, .nil, _ => rfl
  | op :: ops, _, .cons hop hops, hb => by
    funext c
    rw [Operation.applyAll, Operation.applyAll, hop.applyTo, Operation.apply_renamed op hop hb,
      Operation.applyAll_renamed ops hops hb]

/-- The same for an operation. -/
theorem Operation.apply_renamed {scope : List (String × String)} {b b' : Bindings} :
    ∀ (op : Operation) {oq : Operation}, op.Renamed N scope oq → b.Match scope b' →
      op.apply note b = oq.apply note b'
  | .filter p, _, .filter (q := q) _ hp, hb => by
    have hrun (v : Value) := Pipeline.run_renamed p hp (hb.bind p.subject q.subject v)
    funext v
    cases v with
    | array items => simp only [Operation.apply, hrun]
    | _ => rfl
  | .compare _ p, _, .compare _ hp, hb | .or p, _, .or hp, hb | .and p, _, .and hp, hb
  | .constantOf p, _, .constantOf hp, hb | .contains p, _, .contains hp, hb => by
    have hrun := Pipeline.run_renamed p hp hb
    funext v
    rw [Operation.apply, Operation.apply, hrun]
  | .multiSelect ps, _, .multiSelect hps, hb => by
    funext v
    rw [Operation.apply, Operation.apply, Pipeline.runBranches_renamed ps hps hb]
  | .field _, _, .field _, _ | .index _, _, .index _, _ | .not, _, .not, _ | .constant _, _, .constant _, _
  | .length, _, .length, _ => rfl
  | .flatten, _, .flatten, _ | .wildcard, _, .wildcard, _ => by
    funext v
    cases v <;> rfl

/-- The same for branches. -/
theorem Pipeline.runBranches_renamed {scope : List (String × String)} {b b' : Bindings} :
    ∀ (ps : List Pipeline) {qs : List Pipeline}, Pipeline.RenamedAll N scope ps qs → b.Match scope b' →
      ∀ {v}, Pipeline.runBranches note b v ps = Pipeline.runBranches note b' v qs
  | [], _, .nil, _, _ => rfl
  | p :: ps, _, .cons (q := q) _ hp hps, hb, v => by
    rw [Pipeline.runBranches, Pipeline.runBranches, Pipeline.run_renamed p hp (hb.bind p.subject q.subject v),
      Pipeline.runBranches_renamed ps hps hb]

end

end

/-! ### The pipelines of an expression -/

/-- Operations that are the same up to names where the variables of two scopes are counterparts. -/
def Operation.RenamedIn (N : String → String → Prop) (s s' : Scope) (ops oqs : List Operation) : Prop :=
  ∀ scope, Operation.RenamedAll N ((s.subject, s'.subject) :: scope) ops oqs

section

variable {s s' : Scope} {ops oqs : List Operation}

/-- The pipelines of two scopes are the same up to names if their operations are. -/
theorem Operation.RenamedIn.pipeline (h : RenamedIn N s s' ops oqs) (scope : List (String × String)) :
    Pipeline.Renamed N ((s.subject, s'.subject) :: scope) (.mk s.subject ops) (.mk s'.subject oqs) :=
  .mk (.inl ⟨rfl, rfl⟩) (h scope)

theorem Operation.RenamedIn.append {more more' : List Operation} (h : RenamedIn N s s' ops oqs)
    (h' : RenamedIn N s s' more more') : RenamedIn N s s' (ops ++ more) (oqs ++ more') :=
  fun scope => (h scope).append (h' scope)

theorem Operation.RenamedIn.singleton {op oq : Operation} (h : ∀ scope, op.Renamed N scope oq) :
    RenamedIn N s s' [op] [oq] := fun _ => .cons (h _) .nil

/-- Operations with one more that has a side. -/
theorem Operation.RenamedIn.side {other other' : List Operation} {k : Pipeline → Operation}
    (h : RenamedIn N s s' ops oqs) (h' : RenamedIn N s s' other other')
    (hk : ∀ {scope : List (String × String)} {p q : Pipeline}, p.Renamed N scope q → (k p).Renamed N scope (k q)) :
    RenamedIn N s s' (ops ++ [k (.mk s.subject other)]) (oqs ++ [k (.mk s'.subject other')]) :=
  h.append fun scope => .cons (hk (h'.pipeline scope)) .nil

end

open Operation (RenamedIn)

section

variable {Q : Naming → Naming → Prop}

/-- What a body with a scope of its own has in two runs of the compiler. -/
theorem Expr.scoped_renamed (hQ : Naming.InStep N Q) {e : Expr} {s s' : Scope}
    (h : ∀ inner inner' : Scope, Together Q (RenamedIn N inner inner') (e.operations inner) (e.operations inner')) :
    Together Q (fun p q => N p.subject q.subject ∧ ∀ scope, Pipeline.Renamed N ((p.subject, q.subject) :: scope) p q)
      (inScope s fun inner => do
        let ops ← e.operations inner
        return Pipeline.mk inner.subject ops)
      (inScope s' fun inner => do
        let ops ← e.operations inner
        return Pipeline.mk inner.subject ops) :=
  .inScope hQ fun inner inner' hN => (h inner inner').bind fun _ _ hops => .pure ⟨hN, hops.pipeline⟩

mutual

/-- **The operations of an expression are the same up to names** in any two scopes and namings. -/
theorem Expr.operations_renamed (hQ : Naming.InStep N Q) (s s' : Scope) : ∀ e : Expr,
    Together Q (RenamedIn N s s') (e.operations s) (e.operations s')
  | .selector sel => by
    rw [Expr.operations, Expr.operations]
    exact sel.operations_renamed hQ s s'
  | .dot left sel => by
    rw [Expr.operations, Expr.operations]
    refine (left.operations_renamed hQ s s').bind fun _ _ hops => ?_
    exact (sel.operations_renamed hQ s s').bind fun _ _ hmore => .pure (hops.append hmore)
  | .index b => by
    rw [Expr.operations, Expr.operations]
    exact b.operations_renamed hQ s s'
  | .indexOf left b => by
    rw [Expr.operations, Expr.operations]
    refine (left.operations_renamed hQ s s').bind fun _ _ hops => ?_
    exact (b.operations_renamed hQ s s').bind fun _ _ hmore => .pure (hops.append hmore)
  | .binary (.compare c) left right => by
    rw [Expr.operations, Expr.operations]
    refine (left.operations_renamed hQ s s').bind fun _ _ hops => ?_
    exact (right.operations_renamed hQ s s').bind fun _ _ hother => .pure (hops.side hother (.compare c))
  | .binary .or left right => by
    rw [Expr.operations, Expr.operations]
    refine (left.operations_renamed hQ s s').bind fun _ _ hops => ?_
    exact (right.operations_renamed hQ s s').bind fun _ _ hother => .pure (hops.side hother .or)
  | .binary .and left right => by
    rw [Expr.operations, Expr.operations]
    refine (left.operations_renamed hQ s s').bind fun _ _ hops => ?_
    exact (right.operations_renamed hQ s s').bind fun _ _ hother => .pure (hops.side hother .and)
  | .binary .pipe _ _ => .throw _
  | .not e => by
    rw [Expr.operations, Expr.operations]
    refine (e.operations_renamed hQ s s').bind fun _ _ hops => .pure ?_
    have hnot := hops.append (.singleton fun _ => .not)
    exact fun scope => .cons (.constantOf (hnot.pipeline scope)) .nil
  | .paren e => by
    rw [Expr.operations, Expr.operations]
    exact e.operations_renamed hQ s s'
  | .literal v => .pure (.singleton fun _ => .constant _)
  | .raw text => .pure (.singleton fun _ => .constant _)
  | .current => .throw _

/-- The same for a selector. -/
theorem Selector.operations_renamed (hQ : Naming.InStep N Q) (s s' : Scope) : ∀ sel : Selector,
    Together Q (RenamedIn N s s') (sel.operations s) (sel.operations s')
  | .identifier name => .pure (.singleton fun _ => .field name)
  | .star => .pure (.singleton fun _ => .wildcard)
  | .list es => by
    rw [Selector.operations, Selector.operations]
    exact (Expr.branches_renamed hQ s s' es).bind fun _ _ hps => .pure (.singleton fun scope => .multiSelect (hps scope))
  | .hash _ => .throw _
  | .call name arguments => by
    unfold Selector.operations
    split
    · split
      · rename_i e
        refine (e.operations_renamed hQ s s').bind fun _ _ hops => .pure ?_
        exact hops.append (.singleton fun _ => .length)
      · exact .throw _
    · split
      · split
        · rename_i e e'
          refine (e.operations_renamed hQ s s').bind fun _ _ hops => ?_
          exact (e'.operations_renamed hQ s s').bind fun _ _ hother => .pure (hops.side hother .contains)
        · exact .throw _
      · exact .throw _

/-- The same for a bracket. -/
theorem Bracket.operations_renamed (hQ : Naming.InStep N Q) (s s' : Scope) : ∀ b : Bracket,
    Together Q (RenamedIn N s s') (b.operations s) (b.operations s')
  | .flatten => .pure (.singleton fun _ => .flatten)
  | .number n => .pure (.singleton fun _ => .index n)
  | .star => .pure (.singleton fun _ => .wildcard)
  | .slice _ => .throw _
  | .filter e => by
    rw [Bracket.operations, Bracket.operations]
    refine (Expr.scoped_renamed hQ fun inner inner' => e.operations_renamed hQ inner inner').bind fun p q hp => ?_
    exact .pure (.singleton fun scope => .filter hp.1 (hp.2 scope))

/-- The same for the branches of a list. -/
theorem Expr.branches_renamed (hQ : Naming.InStep N Q) (s s' : Scope) : ∀ es : List Expr,
    Together Q (fun ps qs => ∀ scope, Pipeline.RenamedAll N scope ps qs) (Expr.branches s es) (Expr.branches s' es)
  | [] => .pure fun _ => .nil
  | e :: es => by
    rw [Expr.branches, Expr.branches]
    refine (Expr.scoped_renamed hQ fun inner inner' => e.operations_renamed hQ inner inner').bind fun p q hp => ?_
    refine (Expr.branches_renamed hQ s s' es).bind fun ps qs hps => .pure fun scope => ?_
    exact .cons hp.1 (hp.2 scope) (hps scope)

end

/-- The pipelines of an expression are the same up to names. -/
theorem Expr.compile_renamed (hQ : Naming.InStep N Q) (e : Expr) (x y : String) :
    Together Q (Pipeline.Renamed N [(x, y)]) (e.compile x) (e.compile y) := by
  rw [Expr.compile, Expr.compile]
  exact (e.operations_renamed hQ (.root x) (.root y)).bind fun _ _ hops => .pure (hops.pipeline [])

end

/-- Names that nothing is known of, in namings that nothing is known of. -/
theorem Naming.InStep.any : Naming.InStep (fun _ _ => True) fun _ _ => True :=
  ⟨fun _ => trivial, fun _ => trivial, fun _ _ _ => trivial⟩

/-- Pipelines that read a document by their own variables go alike if they are the same up to names. -/
theorem Pipeline.Renamed.run_alone {x y : String} {p q : Pipeline} (h : p.Renamed N [(x, y)] q) {m : Type → Type}
    [Monad m] [MonadExceptOf EvalError m] (note : Step → m Unit) (d : Value) :
    p.run note [(p.subject, d)] = q.run note [(q.subject, d)] := by
  refine Pipeline.run_renamed p h ?_
  cases h with
  | mk hsubject _ =>
    obtain ⟨rfl, rfl⟩ | ⟨_, _, ⟨⟩⟩ := hsubject
    have hnone : Bindings.Match [] [] [] := fun _ _ h => nomatch h
    exact hnone.bind x y d

/-- **Names never matter.** Whatever variable an expression reads, whatever its new variables are
called and wherever their numbers start, the outcome is the same error, or a pipeline that gives the
same on every document and takes the same steps. -/
theorem Expr.compile_anyNames (e : Expr) (x y : String) (n n' : Naming) :
    Alike (fun p q => ∀ d, p.evaluate d = q.evaluate d ∧ Query.tracedRun p d = Query.tracedRun q d)
      (e.compile x n).1 (e.compile y n').1 :=
  (e.compile_renamed .any x y n n' trivial).1.imp fun p q h d => by
    refine ⟨h.run_alone _ d, ?_⟩
    rw [Query.tracedRun, Query.tracedRun, h.run_alone]

end PathQuery
