/-
# Flattening in stages

A path that begins with `[]` goes in stages: each merges one level of arrays, and takes what that
gives through the steps after it, up to the next `[]`. The steps are done one after the other to
the whole projection, and each leaves out what becomes null; but null stays null along fields and
places, so that is what taking each item through all of the steps and leaving out nulls once gives
(`FlattenStage.applyAll`). A stage without steps leaves nothing out.

So a whole path is a fold of its stages over the items of an array, and on any other value it is
null (`Expr.evaluate_flattenPath`).

Key definitions: `PathStep`, `FlattenStage`, `FlattenStage.items`, `flattenPath`.
Key theorems: `Value.flattenItems_eq_flatMap`, `FlattenStage.applyAll`, `FlattenStage.applyAll_all`,
`Expr.evaluate_flattenPath`.
-/
import PathQuery.Pipeline.Compile
import PathQuery.Proofs.Projection

namespace PathQuery

/-! ### Stages -/

/-- A step to a part of a value. -/
inductive PathStep
  /-- The member of a name. -/
  | field (name : String)
  /-- The item at a place. -/
  | index (n : Int64)
deriving DecidableEq

namespace PathStep

/-- The part of a value, or null. -/
def part : PathStep → Value → Value
  | .field name, v => v.member name
  | .index n, v => v.item n

/-- The part that several steps lead to, one after the other. -/
def follow (steps : List PathStep) (v : Value) : Value := steps.foldl (fun v step => step.part v) v

/-- An expression with a step after it. -/
def after (e : Expr) : PathStep → Expr
  | .field name => .dot e (.identifier name)
  | .index n => .indexOf e (.number n)

/-- What a step is compiled to. -/
def operation : PathStep → Operation
  | .field name => .field name
  | .index n => .index n

end PathStep

/-- What a value stands for among the items of an array with one level merged. -/
def Value.spliced : Value → List Value
  | .array items => items
  | v => [v]

/-- The steps between one flattening and the next. -/
abbrev FlattenStage := List PathStep

namespace FlattenStage

/-- What a stage makes of the items of an array: one level is merged, and if there are steps each
item is replaced by what they lead to, and nulls are left out. -/
def items (stage : FlattenStage) (vs : List Value) : List Value :=
  let merged := vs.flatMap Value.spliced
  if stage = [] then merged else (merged.map (PathStep.follow stage)).filter (!·.isNull)

/-- An expression with steps after it. -/
def after (e : Expr) (stage : FlattenStage) : Expr := stage.foldl PathStep.after e

/-- What a stage is compiled to. -/
def operations (stage : FlattenStage) : List Operation := .flatten :: stage.map PathStep.operation

end FlattenStage

/-- A path of one stage or more. -/
def flattenPath (first : FlattenStage) (rest : List FlattenStage) : Expr :=
  rest.foldl (fun e stage => stage.after (.indexOf e .flatten)) (first.after (.index .flatten))

/-! ### What a path is compiled to -/

namespace Expr

variable {e : Expr} {s : Scope} {ops : List Operation}

theorem operations_step (h : e.operations s = pure ops) (step : PathStep) :
    (step.after e).operations s = pure (ops ++ [step.operation]) := by
  cases step with
  | field name =>
    rw [PathStep.after, Expr.operations, h]
    rfl
  | index n =>
    rw [PathStep.after, Expr.operations, h]
    rfl

theorem operations_steps (h : e.operations s = pure ops) (stage : FlattenStage) :
    (stage.after e).operations s = pure (ops ++ stage.map PathStep.operation) := by
  induction stage generalizing e ops with
  | nil =>
    rw [List.map_nil, List.append_nil]
    exact h
  | cons step steps ih =>
    have hstep := ih (operations_step h step)
    rw [List.append_assoc] at hstep
    exact hstep

theorem operations_stages (h : e.operations s = pure ops) (rest : List FlattenStage) :
    (rest.foldl (fun e stage => FlattenStage.after (.indexOf e .flatten) stage) e).operations s =
      pure (ops ++ rest.flatMap FlattenStage.operations) := by
  induction rest generalizing e ops with
  | nil =>
    rw [List.flatMap_nil, List.append_nil]
    exact h
  | cons stage rest ih =>
    have hflatten : (Expr.indexOf e .flatten).operations s = pure (ops ++ [.flatten]) := by
      rw [Expr.operations, h]
      rfl
    have hstage := ih (operations_steps hflatten stage)
    rw [List.append_assoc, List.append_assoc] at hstage
    exact hstage

/-- **A path is compiled to the operations of its stages.** -/
theorem compile_flattenPath (first : FlattenStage) (rest : List FlattenStage) (subject : String) :
    (flattenPath first rest).compile subject =
      pure (.mk subject ((first :: rest).flatMap FlattenStage.operations)) := by
  have hflatten : (Expr.index .flatten).operations (.root subject) = pure [.flatten] := rfl
  have hpath := operations_stages (operations_steps hflatten first) rest
  rw [Expr.compile, flattenPath, hpath]
  rfl

end Expr

/-! ### What a stage does -/

/-- **One level of arrays is merged**: each array makes way for its items. -/
theorem Value.flattenItems_eq_flatMap (vs : List Value) : Value.flattenItems vs = vs.flatMap Value.spliced := by
  induction vs with
  | nil => rfl
  | cons v vs ih =>
    cases v with
    | array items => rw [Value.flattenItems, List.flatMap_cons, ih]; rfl
    | _ => exact congrArg _ ih

namespace PathStep

variable {b : Bindings}

theorem operation_isStep (step : PathStep) : step.operation.IsStep := by
  cases step with
  | field name => exact ⟨rfl, rfl⟩
  | index n => exact ⟨rfl, rfl⟩

theorem operations_isStep (steps : List PathStep) : ∀ op ∈ steps.map operation, op.IsStep := by
  intro op hop
  obtain ⟨step, -, rfl⟩ := List.mem_map.1 hop
  exact step.operation_isStep

/-- Steps in turn lead to the part that they say. -/
theorem inTurn_follow (steps : List PathStep) (v : Value) :
    Operation.inTurn (steps.map operation) v = .ok (follow steps v) := by
  induction steps generalizing v with
  | nil => rfl
  | cons step steps ih =>
    have hstep : step.operation.apply quiet [] v = .ok (.single (step.part v)) := by cases step <;> rfl
    rw [List.map_cons, Operation.inTurn, hstep]
    exact ih (step.part v)

end PathStep

namespace FlattenStage

variable {b : Bindings}

/-- A flattening takes the items of an array, whether they are a projection or not. -/
theorem applyAll_flatten {c : Current} {vs : List Value} (hc : c.value = .array vs) (ops : List Operation) :
    Operation.applyAll quiet b (.flatten :: ops) c =
      Operation.applyAll quiet b ops (.projection (vs.flatMap Value.spliced)) := by
  rw [Operation.applyAll, Operation.applyTo_quiet, if_neg nofun, hc, ← Value.flattenItems_eq_flatMap]
  rfl

/-- **What a stage does to an array.** -/
theorem applyAll (stage : FlattenStage) {c : Current} {vs : List Value} (hc : c.value = .array vs) :
    Operation.applyAll quiet b stage.operations c = .ok (.projection (stage.items vs)) := by
  rw [operations, applyAll_flatten hc, items]
  by_cases hstage : stage = []
  · rw [if_pos hstage, hstage]
    rfl
  · rw [if_neg hstage]
    have hne : stage.map PathStep.operation ≠ [] := fun h => hstage (List.map_eq_nil_iff.1 h)
    refine (Operation.applyAll_projection hne (PathStep.operations_isStep stage) _ _).2
      ⟨(vs.flatMap Value.spliced).map (PathStep.follow stage), ?_, rfl⟩
    exact List.forall₂_map_right_iff.2 (List.forall₂_same.2 fun v _ => PathStep.inTurn_follow stage v)

/-- What all stages do, one after the other. -/
theorem applyAll_all (stages : List FlattenStage) {c : Current} {vs : List Value} (hc : c.value = .array vs) :
    ∃ c', Operation.applyAll quiet b (stages.flatMap operations) c = .ok c' ∧
      c'.value = .array (stages.foldl (fun vs stage => stage.items vs) vs) := by
  induction stages generalizing c vs with
  | nil => exact ⟨c, rfl, hc⟩
  | cons stage stages ih =>
    rw [List.flatMap_cons, Operation.applyAll_append, stage.applyAll hc]
    exact ih rfl

/-- Null stays null along a path. -/
theorem applyAll_null (stages : List FlattenStage) :
    Operation.applyAll quiet b (stages.flatMap operations) (.single .null) = .ok (.single .null) := by
  have hnull : ∀ op ∈ stages.flatMap operations,
      op.applyTo quiet (op.apply quiet b) (.single .null) = .ok (.single .null) := by
    intro op hop
    obtain ⟨stage, -, hop⟩ := List.mem_flatMap.1 hop
    rcases List.mem_cons.1 hop with rfl | hop
    · rfl
    · obtain ⟨step, -, rfl⟩ := List.mem_map.1 hop
      cases step <;> rfl
  generalize stages.flatMap operations = ops at hnull
  induction ops with
  | nil => rfl
  | cons op ops ih =>
    obtain ⟨hop, hops⟩ := List.forall_mem_cons.1 hnull
    rw [Operation.applyAll, hop]
    exact ih hops

/-- What is no array is null after the first flattening. -/
theorem applyAll_noArray (first : FlattenStage) (rest : List FlattenStage) {v : Value} (hv : ∀ vs, v ≠ .array vs) :
    Operation.applyAll quiet b ((first :: rest).flatMap operations) (.single v) = .ok (.single .null) := by
  have hfirst : Operation.applyAll quiet b ((first :: rest).flatMap operations) (.single v) =
      Operation.applyAll quiet b ((first :: rest).flatMap operations) (.single .null) := by
    cases v with
    | array vs => exact absurd rfl (hv vs)
    | _ => rfl
  rw [hfirst, applyAll_null]

end FlattenStage

/-- **What a path in stages gives.** An array goes through the stages one after the other, each
as a whole: one level of arrays is merged, and if there are steps each item is replaced by what
all of them lead to, and nulls are left out. Any other value gives null. -/
theorem Expr.evaluate_flattenPath (first : FlattenStage) (rest : List FlattenStage) (subject : String)
    (naming : Naming) :
    ∃ p, (flattenPath first rest).compile subject naming = (.ok p, naming) ∧
      ∀ document, p.evaluate document = .ok (match document with
        | .array vs => .array ((first :: rest).foldl (fun vs stage => stage.items vs) vs)
        | _ => .null) := by
  refine ⟨.mk subject ((first :: rest).flatMap FlattenStage.operations), ?_, fun document => ?_⟩
  · rw [compile_flattenPath]
    rfl
  · rw [Pipeline.evaluate_mk]
    cases document with
    | array vs =>
      obtain ⟨c, hc, hvalue⟩ := FlattenStage.applyAll_all (b := [(subject, .array vs)]) (first :: rest)
        (c := .single (.array vs)) rfl
      rw [hc]
      exact congrArg Except.ok hvalue
    | _ =>
      rw [FlattenStage.applyAll_noArray first rest fun _ h => by cases h]
      rfl

/-- Nulls are left out where there are steps and kept where there are none, and one level of arrays is merged at a
time. -/
example : (flattenPath [.field "a"] [[]]).compile "input" (.start "x") = (.ok (.mk "input"
      [.flatten, .field "a", .flatten]), .start "x") ∧
    (Pipeline.mk "input" [.flatten, .field "a", .flatten]).evaluate
      (.array [.array [.object [("a", .array [.null, .array []])]], .object [("b", .null)]]) =
        .ok (.array [.null, .array []]) := ⟨rfl, rfl⟩

end PathQuery
