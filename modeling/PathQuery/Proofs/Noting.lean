/-
# Runs that note their steps

A run may note each step that it takes. Whatever it does with the notes, if noting does not fail
the run has the result of one that notes nothing (`Pipeline.run_follows`).

Key theorems: `Pipeline.run_follows`, `Query.tracedRun_fst`.
-/
import PathQuery.Log
import PathQuery.Proofs.Running
import PathQuery.Proofs.Stateful

namespace PathQuery

section

variable {σ : Type}

theorem eachItem_follows {action : Value → Stateful EvalError σ Current} {action' : Value → Except EvalError Current}
    (h : ∀ v, Follows Eq (action v) (action' v)) : ∀ items, Follows Eq (eachItem action items) (eachItem action' items)
  | [] => .pure rfl
  | v :: rest => (h v).bind_eq fun _ => (eachItem_follows h rest).bind_eq fun _ => .pure rfl

theorem keepItems_follows {test : Value → Stateful EvalError σ Bool} {test' : Value → Except EvalError Bool}
    (h : ∀ v, Follows Eq (test v) (test' v)) : ∀ items, Follows Eq (keepItems test items) (keepItems test' items)
  | [] => .pure rfl
  | v :: rest => (h v).bind_eq fun _ => (keepItems_follows h rest).bind_eq fun _ => .pure rfl

theorem orTypeError_follows (r : Except TypeFault Value) :
    Follows Eq (orTypeError r : Stateful EvalError σ Current) (orTypeError r) := by
  cases r with
  | ok v => exact .pure rfl
  | error fault => exact .throw _

variable {note : Step → Stateful EvalError σ Unit}

theorem Operation.applyTo_follows (hnote : ∀ s, Follows Eq (note s) (pure ())) {op : Operation}
    {one : Value → Stateful EvalError σ Current} {one' : Value → Except EvalError Current}
    (h : ∀ v, Follows Eq (one v) (one' v)) (c : Current) :
    Follows Eq (op.applyTo note one c) (op.applyTo quiet one' c) := by
  cases c with
  | single v => exact (hnote _).bind_eq fun _ => h v
  | projection items =>
    refine (hnote _).bind_eq fun _ => ?_
    cases op.distributes with
    | true => exact (eachItem_follows (fun v => (hnote _).bind_eq fun _ => h v) items).bind_eq fun results => .pure rfl
    | false => exact h _

mutual

/-- **Noting the steps of a run makes no difference to its result.** -/
theorem Pipeline.run_follows (hnote : ∀ s, Follows Eq (note s) (pure ())) (b : Bindings) : ∀ p : Pipeline,
    Follows Eq (p.run note b) (p.run quiet b)
  | .mk x ops => by
    rw [Pipeline.run, Pipeline.run]
    cases Fields.lookup x b with
    | none => exact .throw _
    | some v => exact (Operation.applyAll_follows hnote b ops (.single v)).bind_eq fun c => .pure rfl

/-- The same for operations in a row. -/
theorem Operation.applyAll_follows (hnote : ∀ s, Follows Eq (note s) (pure ())) (b : Bindings) :
    ∀ (ops : List Operation) (c : Current), Follows Eq (Operation.applyAll note b ops c) (Operation.applyAll quiet b ops c)
  | [], c => .pure rfl
  | op :: ops, c => by
    rw [Operation.applyAll, Operation.applyAll]
    refine (Operation.applyTo_follows hnote (Operation.apply_follows hnote b op) c).bind_eq fun c => ?_
    exact Operation.applyAll_follows hnote b ops c

/-- The same for an operation. -/
theorem Operation.apply_follows (hnote : ∀ s, Follows Eq (note s) (pure ())) (b : Bindings) :
    ∀ (op : Operation) (v : Value), Follows Eq (op.apply note b v) (op.apply quiet b v)
  | .filter p, .array items => by
    rw [Operation.apply, Operation.apply]
    refine (keepItems_follows (fun item => ?_) items).bind_eq fun kept => .pure rfl
    exact (Pipeline.run_follows hnote _ p).bind_eq fun result => .pure rfl
  | .compare c p, v => by
    rw [Operation.apply, Operation.apply]
    exact (Pipeline.run_follows hnote b p).bind_eq fun other => .pure rfl
  | .or p, v => by
    rw [Operation.apply, Operation.apply]
    cases v.isTruthy with
    | true => exact .pure rfl
    | false => exact (Pipeline.run_follows hnote b p).map_eq _
  | .and p, v => by
    rw [Operation.apply, Operation.apply]
    cases v.isTruthy with
    | true => exact (Pipeline.run_follows hnote b p).map_eq _
    | false => exact .pure rfl
  | .constantOf p, v => by
    rw [Operation.apply, Operation.apply]
    exact (Pipeline.run_follows hnote b p).map_eq _
  | .length, v => by
    rw [Operation.apply, Operation.apply]
    exact orTypeError_follows _
  | .contains p, v => by
    rw [Operation.apply, Operation.apply]
    exact (Pipeline.run_follows hnote b p).bind_eq fun needle => orTypeError_follows _
  | .multiSelect ps, v => by
    rw [Operation.apply, Operation.apply]
    cases v.isNull with
    | true => exact .pure rfl
    | false => exact (Pipeline.runBranches_follows hnote b v ps).bind_eq fun results => .pure rfl
  | .field _, _ | .index _, _ | .not, _ | .constant _, _ => .pure rfl
  | .flatten, v | .wildcard, v => by cases v <;> exact .pure rfl
  | .filter p, .null | .filter p, .boolean _ | .filter p, .number _ | .filter p, .string _ | .filter p, .object _ =>
    .pure rfl

/-- The same for branches. -/
theorem Pipeline.runBranches_follows (hnote : ∀ s, Follows Eq (note s) (pure ())) (b : Bindings) (v : Value) :
    ∀ ps : List Pipeline, Follows Eq (Pipeline.runBranches note b v ps) (Pipeline.runBranches quiet b v ps)
  | [] => .pure rfl
  | p :: ps => by
    rw [Pipeline.runBranches, Pipeline.runBranches]
    refine (Pipeline.run_follows hnote _ p).bind_eq fun result => ?_
    exact (Pipeline.runBranches_follows hnote b v ps).bind_eq fun results => .pure rfl

end

end

/-! ### The steps of a run -/

namespace Query

theorem collect_follows (s : Step) : Follows Eq (collect s) (pure ()) := fun _ => .ok rfl

/-- Collecting the steps leaves the result as it is. -/
theorem tracedRun_fst (p : Pipeline) (d : Value) : (tracedRun p d).1 = p.evaluate d :=
  (Pipeline.run_follows collect_follows [(p.subject, d)] p []).eq

variable {x : String} {ops : List Operation} {d v : Value}

theorem tracedRun_of_ok {c : Current} {steps : List Step}
    (h : (Operation.applyAll collect [(x, d)] ops (.single d) : Tracing Current) [] = (.ok c, steps)) :
    tracedRun (.mk x ops) d = (.ok c.value, steps.reverse) := by
  have hrun : ((Pipeline.mk x ops).run collect [(x, d)] : Tracing Value) = do
      let c ← Operation.applyAll collect [(x, d)] ops (.single d)
      return c.value := by
    rw [Pipeline.run, show Fields.lookup x [(x, d)] = some d from if_pos rfl]
  rw [tracedRun, Pipeline.subject, hrun, Stateful.bind_ok h]
  rfl

theorem applyAll_of_evaluate (h : (Pipeline.mk x ops).evaluate d = .ok v) : ∃ c steps,
    (Operation.applyAll collect [(x, d)] ops (.single d) : Tracing Current) [] = (.ok c, steps) ∧ c.value = v := by
  rw [Pipeline.evaluate_mk] at h
  obtain ⟨c, hc, h⟩ := bind_eq_ok.1 h
  have hfst := (Operation.applyAll_follows collect_follows [(x, d)] ops (.single d) []).eq.trans hc
  exact ⟨c, _, Prod.ext hfst rfl, Except.ok.inj h⟩

/-- An operation that keeps the result takes one step and runs nothing. -/
theorem tracedRun_append {op : Operation} (h : (Pipeline.mk x ops).evaluate d = .ok v) (hop : op.distributes = false)
    (hkeep : op.apply collect [(x, d)] v = pure (.single v)) : ∃ projecting,
      tracedRun (.mk x (ops ++ [op])) d =
        (.ok v, (tracedRun (.mk x ops) d).2 ++ [⟨op.name, v.typeName, projecting⟩]) := by
  obtain ⟨c, steps, hc, rfl⟩ := applyAll_of_evaluate h
  have hlast : ∃ projecting, (op.applyTo collect (op.apply collect [(x, d)]) c : Tracing Current) steps =
      (.ok (.single c.value), ⟨op.name, c.value.typeName, projecting⟩ :: steps) := by
    cases c with
    | single v =>
      refine ⟨false, ?_⟩
      rw [Current.value] at hkeep
      rw [Operation.applyTo, hkeep]
      rfl
    | projection items =>
      refine ⟨true, ?_⟩
      rw [Current.value] at hkeep
      rw [Operation.applyTo, hop, if_neg nofun, hkeep]
      rfl
  obtain ⟨projecting, hlast⟩ := hlast
  refine ⟨projecting, ?_⟩
  have happend : (Operation.applyAll collect [(x, d)] (ops ++ [op]) (.single d) : Tracing Current) [] =
      (.ok (.single c.value), ⟨op.name, c.value.typeName, projecting⟩ :: steps) := by
    rw [Operation.applyAll_append, Stateful.bind_ok hc, Operation.applyAll_singleton, hlast]
  rw [tracedRun_of_ok happend, tracedRun_of_ok hc, List.reverse_cons]
  rfl

end Query

end PathQuery
