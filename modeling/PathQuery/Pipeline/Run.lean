/-
# Running a pipeline

A pipeline starts with the value of its variable and hands it from operation to
operation. Flattening, wildcards and filters make a projection: a list whose
items the steps along a path then go on with one by one, leaving out what becomes
null. Any other operation takes a projection as one array.

A pipeline inside an operation reads the variables in scope, not the current
value; the test of a filter and the branches of a list have the item or the
current value bound to their variable.

A run can note each step that it takes, so it is written for any monad that can
fail. `Pipeline.evaluate` notes nothing.

Key definitions: `EvalError`, `Current`, `Step`, `Pipeline.run`,
`Operation.apply`, `Pipeline.evaluate`.
-/
import PathQuery.Pipeline
import PathQuery.Value.Operations

namespace PathQuery

/-- Why a run has no result. -/
inductive EvalError
  /-- A pipeline reads a variable that nothing binds. -/
  | unbound (name : String)
  /-- A function is given a type that it does not take. -/
  | type (fault : TypeFault)
deriving DecidableEq, Repr

/-- The words for it. -/
def EvalError.message : EvalError → String
  | .unbound name => "Unbound variable: " ++ name
  | .type fault => "Type error: " ++ fault.message

/-! ### The current value -/

/-- What an operation is applied to: a value, or the items of a projection. -/
inductive Current
  | single (v : Value)
  | projection (items : List Value)

/-- The current value as a value. -/
def Current.value : Current → Value
  | .single v => v
  | .projection items => .array items

/-- An operation as it is about to be applied. -/
structure Step where
  operation : String
  type : String
  projecting : Bool
deriving DecidableEq, Repr

/-- The values of variables, innermost first. -/
abbrev Bindings := List (String × Value)

variable {m : Type → Type} [Monad m]

/-- What an action makes of each item, without nulls. -/
def eachItem (action : Value → m Current) : List Value → m (List Value)
  | [] => pure []
  | v :: rest => do
    let c ← action v
    let results ← eachItem action rest
    pure (if c.value.isNull then results else c.value :: results)

/-- The items that a test accepts. -/
def keepItems (test : Value → m Bool) : List Value → m (List Value)
  | [] => pure []
  | v :: rest => do
    let kept ← test v
    let results ← keepItems test rest
    pure (if kept then v :: results else results)

/-- Applies an operation to the current value, given what it does to one value. Steps
are noted before they are taken. -/
def Operation.applyTo (note : Step → m Unit) (op : Operation) (one : Value → m Current) :
    Current → m Current
  | .single v => do
    note ⟨op.name, v.typeName, false⟩
    one v
  | .projection items => do
    note ⟨op.name, "array", true⟩
    if op.distributes then do
      let results ← eachItem (fun v => do note ⟨op.name, v.typeName, false⟩; one v) items
      pure (.projection results)
    else one (.array items)

variable [MonadExceptOf EvalError m]

/-- The result of a function, or its fault as an error. -/
def orTypeError : Except TypeFault Value → m Current
  | .ok v => pure (.single v)
  | .error fault => throw (.type fault)

mutual

/-- The result of a pipeline. -/
def Pipeline.run (note : Step → m Unit) (bindings : Bindings) : Pipeline → m Value
  | .mk v ops =>
    match Fields.lookup v bindings with
    | none => throw (.unbound v)
    | some start => do
      let c ← Operation.applyAll note bindings ops (.single start)
      pure c.value

/-- The current value after all operations of a list. -/
def Operation.applyAll (note : Step → m Unit) (bindings : Bindings) :
    List Operation → Current → m Current
  | [], c => pure c
  | op :: ops, c => do
    let c ← op.applyTo note (Operation.apply note bindings op) c
    Operation.applyAll note bindings ops c

/-- What an operation makes of one value. -/
def Operation.apply (note : Step → m Unit) (bindings : Bindings) : Operation → Value → m Current
  | .field name, v => pure (.single (v.member name))
  | .index n, v => pure (.single (v.item n))
  | .flatten, v =>
    match v with
    | .array items => pure (.projection (Value.flattenItems items))
    | _ => pure (.single .null)
  | .wildcard, v =>
    match v with
    | .array items => pure (.projection items)
    | .object fields => pure (.projection (fields.map Prod.snd))
    | _ => pure (.single .null)
  | .filter p, v =>
    match v with
    | .array items => do
      let kept ← keepItems
        (fun item => do
          let result ← p.run note ((p.subject, item) :: bindings)
          pure result.isTruthy) items
      pure (.projection kept)
    | _ => pure (.single .null)
  | .compare c p, v => do
    let other ← p.run note bindings
    pure (.single (Value.compareBy c v other))
  | .or p, v => if v.isTruthy then pure (.single v) else .single <$> p.run note bindings
  | .and p, v => if v.isTruthy then .single <$> p.run note bindings else pure (.single v)
  | .not, v => pure (.single (.boolean (!v.isTruthy)))
  | .constant w, _ => pure (.single w)
  | .constantOf p, _ => .single <$> p.run note bindings
  | .length, v => orTypeError v.length
  | .contains p, v => do
    let needle ← p.run note bindings
    orTypeError (v.contains needle)
  | .multiSelect ps, v =>
    if v.isNull then pure (.single .null)
    else do
      let results ← Pipeline.runBranches note bindings v ps
      pure (.single (.array results))

/-- The results of branches, each with its variable bound to a value. -/
def Pipeline.runBranches (note : Step → m Unit) (bindings : Bindings) (v : Value) :
    List Pipeline → m (List Value)
  | [] => pure []
  | p :: ps => do
    let result ← p.run note ((p.subject, v) :: bindings)
    let results ← Pipeline.runBranches note bindings v ps
    pure (result :: results)

end

/-- The result of a pipeline whose variable stands for a document. -/
def Pipeline.evaluate (p : Pipeline) (document : Value) : Except EvalError Value :=
  p.run (fun _ => pure ()) [(p.subject, document)]

end PathQuery
