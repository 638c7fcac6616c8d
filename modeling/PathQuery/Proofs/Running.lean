/-
# Runs that note nothing

A run without notes is a computation that may fail. An operation takes the current value as
one value, or goes through the items of a projection (`Current.spread`), where it leaves out
what becomes null. Operations in a row do what one list does and then the other.

Key definitions: `quiet`, `Current.spread`.
Key theorems: `Operation.applyTo_quiet`, `Operation.applyAll_append`, `Pipeline.evaluate_mk`,
`eachItem_eq_ok`, `keepItems_eq_filterM`.
-/
import Mathlib.Data.List.Forall2
import PathQuery.Pipeline.Run
import PathQuery.Proofs.Outcome

namespace PathQuery

/-- Notes nothing. -/
abbrev quiet : Step → Except EvalError Unit := fun _ => pure ()

/-- Does something to a value, or to each item of a projection. -/
def Current.spread (one : Value → Except EvalError Current) : Current → Except EvalError Current
  | .single v => one v
  | .projection items => do
    let results ← eachItem one items
    return .projection results

namespace Operation

/-- **What an operation does to the current value.** -/
theorem applyTo_quiet (op : Operation) (one : Value → Except EvalError Current) (c : Current) :
    op.applyTo quiet one c = if op.distributes then c.spread one else one c.value := by
  cases c with
  | single v => cases op.distributes <;> rfl
  | projection items => rfl

end Operation

namespace Operation

variable {m : Type → Type} [Monad m] [LawfulMonad m] [MonadExceptOf EvalError m] {note : Step → m Unit} {b : Bindings}

theorem applyAll_append (ops more : List Operation) (c : Current) :
    applyAll note b (ops ++ more) c = applyAll note b ops c >>= applyAll note b more := by
  induction ops generalizing c with
  | nil => rw [List.nil_append, applyAll, pure_bind]
  | cons op ops ih =>
    rw [List.cons_append, applyAll, applyAll, bind_assoc]
    exact bind_congr fun c => ih c

theorem applyAll_singleton (op : Operation) (c : Current) :
    applyAll note b [op] c = op.applyTo note (op.apply note b) c := by
  rw [applyAll]
  exact bind_pure _

end Operation

/-- The result of a pipeline whose variable is bound. -/
theorem Pipeline.run_of_lookup {b : Bindings} {x : String} {ops : List Operation} {v : Value}
    (h : Fields.lookup x b = some v) : (Pipeline.mk x ops).run quiet b = do
      let c ← Operation.applyAll quiet b ops (.single v)
      return c.value := by
  rw [Pipeline.run, h]

/-- The result of a pipeline on a document. -/
theorem Pipeline.evaluate_mk (x : String) (ops : List Operation) (v : Value) :
    (Pipeline.mk x ops).evaluate v = do
      let c ← Operation.applyAll quiet [(x, v)] ops (.single v)
      return c.value :=
  run_of_lookup (b := [(x, v)]) (if_pos rfl)

/-! ### Items -/

/-- What an action makes of each item, without nulls. -/
theorem eachItem_eq_ok {action : Value → Except EvalError Current} {items vs : List Value} :
    eachItem action items = .ok vs ↔ ∃ cs, List.Forall₂ (fun v c => action v = .ok c) items cs ∧
      (cs.map Current.value).filter (!·.isNull) = vs := by
  induction items generalizing vs with
  | nil =>
    constructor
    · exact fun h => ⟨[], .nil, Except.ok.inj h⟩
    · rintro ⟨_, ⟨⟩, rfl⟩
      rfl
  | cons v items ih =>
    rw [eachItem, bind_eq_ok]
    constructor
    · rintro ⟨c, hc, h⟩
      obtain ⟨results, hresults, h⟩ := bind_eq_ok.1 h
      obtain ⟨cs, hcs, rfl⟩ := ih.1 hresults
      refine ⟨c :: cs, .cons hc hcs, ?_⟩
      rw [← Except.ok.inj h, List.map_cons, List.filter_cons]
      cases c.value.isNull <;> rfl
    · rintro ⟨_, h, rfl⟩
      obtain ⟨c, cs, hc, hcs, rfl⟩ := List.forall₂_cons_left_iff.1 h
      refine ⟨c, hc, ?_⟩
      rw [ih.2 ⟨cs, hcs, rfl⟩, List.map_cons, List.filter_cons]
      cases c.value.isNull <;> rfl

/-- The items that a test accepts, by the library's own search. -/
theorem keepItems_eq_filterM {ε : Type} (test : Value → Except ε Bool) (items : List Value) :
    keepItems test items = items.filterM test := by
  have haux : ∀ items acc : List Value,
      items.filterAuxM test acc = (keepItems test items).map fun kept => kept.reverse ++ acc := by
    intro items
    induction items with
    | nil => exact fun acc => rfl
    | cons v rest ih =>
      intro acc
      rw [List.filterAuxM, keepItems]
      cases test v with
      | error e => rfl
      | ok kept =>
        simp only [bind, Except.bind, ih]
        cases keepItems test rest with
        | error e => rfl
        | ok results => cases kept <;> simp [Except.map, pure, Except.pure]
  rw [List.filterM, haux]
  cases keepItems test items with
  | error e => rfl
  | ok results => simp [Except.map, bind, Except.bind, pure, Except.pure]

end PathQuery
