/-
# What an expression means

An expression takes the current value to another, given the value of the scope it stands in.
This is said here of the tree itself, with no names in it (`Expr.meaning`): steps of a path go
on from the current value, the other side of an operator starts from the value of the scope, a
filter and a list open a scope for each item and each entry. A tree without a pipeline has the
error of the compiler instead.

The compiled operations do what the tree means wherever their variable stands for the value of
the scope (`Expr.operations_meaning`). So neither the names that the compiler makes nor the
variables around a scope make a difference to a result.

Key definitions: `Meaning`, `Expr.meaning`, `Operation.Performs`.
Key theorems: `Expr.operations_meaning`, `Expr.compile_meaning`.
-/
import PathQuery.Proofs.Stateful
import PathQuery.Proofs.Running

namespace PathQuery

/-- What is done to the current value, given the value of the scope. -/
abbrev Meaning := Value → Current → Except EvalError Current

namespace Meaning

/-- The result on a value in a scope whose value is `d`. -/
def result (f : Meaning) (d v : Value) : Except EvalError Value := do
  let c ← f d (.single v)
  return c.value

/-- The result on the value of the scope. -/
def value (f : Meaning) (d : Value) : Except EvalError Value := f.result d d

/-- One after the other. -/
def andThen (f g : Meaning) : Meaning := fun d c => f d c >>= g d

/-- What an operation does that holds no pipeline. -/
def step (op : Operation) : Meaning := fun _ => op.applyTo quiet (op.apply quiet [])

/-- What `k` makes of what becomes of the current value, given the other side on the value of
the scope, which is only run if `k` asks for it. -/
def withRight (k : Value → Except EvalError Value → Except EvalError Current) (f g : Meaning) : Meaning :=
  fun d current => do
    let left ← f d current
    k left.value (g.value d)

/-- The comparison of the two sides. -/
def compare (c : Comparator) : Meaning → Meaning → Meaning := withRight fun v right => do
  let w ← right
  return .single (Value.compareBy c v w)

/-- The left side if it is true, and else the right side. -/
def or : Meaning → Meaning → Meaning := withRight fun v right =>
  if v.isTruthy then return .single v else .single <$> right

/-- The right side if the left side is true, and else the left side. -/
def and : Meaning → Meaning → Meaning := withRight fun v right =>
  if v.isTruthy then .single <$> right else return .single v

/-- Whether the right side is in the left side. -/
def contains : Meaning → Meaning → Meaning := withRight fun v right => do
  let needle ← right
  orTypeError (v.contains needle)

/-- Whether the value of the scope does not become true. -/
def not (f : Meaning) : Meaning := fun d _ => do
  let v ← f.value d
  return .single (.boolean (!v.isTruthy))

/-- The items that become true, each in a scope of its own. -/
def filter (f : Meaning) : Meaning := fun _ => Current.spread fun v =>
  match v with
  | .array items => do
    let kept ← keepItems (fun item => do return (← f.value item).isTruthy) items
    return .projection kept
  | _ => return .single .null

/-- What becomes of a value in several ways, each in a scope of its own. -/
def list (fs : List Meaning) : Meaning := fun _ => Current.spread fun v =>
  if v.isNull then return .single .null
  else do
    let results ← fs.mapM (·.value v)
    return .single (.array results)

/-! What the combinations give depends on what the parts give: the first part on the same value,
the others on the value of the scope. -/

variable {f g : Meaning} {d v : Value}

theorem result_compare (c : Comparator) : (compare c f g).result d v = (do
    let left ← f.result d v
    let right ← g.value d
    return Value.compareBy c left right) := by
  simp only [result, compare, withRight, bind_assoc, pure_bind, Current.value]

theorem result_or : (or f g).result d v = (do
    let left ← f.result d v
    if left.isTruthy then return left else g.value d) := by
  simp only [result, or, withRight, bind_assoc, pure_bind]
  refine bind_congr fun left => ?_
  cases left.value.isTruthy <;> simp [Current.value]

theorem result_and : (and f g).result d v = (do
    let left ← f.result d v
    if left.isTruthy then g.value d else return left) := by
  simp only [result, and, withRight, bind_assoc, pure_bind]
  refine bind_congr fun left => ?_
  cases left.value.isTruthy <;> simp [Current.value]

theorem result_contains : (contains f g).result d v = (do
    let subject ← f.result d v
    let needle ← g.value d
    (subject.contains needle).mapError .type) := by
  simp only [result, contains, withRight, bind_assoc, pure_bind]
  refine bind_congr fun subject => bind_congr fun needle => ?_
  cases subject.value.contains needle <;> rfl

theorem result_not : (not f).result d v = (do
    let w ← f.value d
    return .boolean (!w.isTruthy)) := by
  simp only [result, not, bind_assoc, pure_bind, Current.value]

theorem result_length : (f.andThen (step .length)).result d v = (do
    let subject ← f.result d v
    subject.length.mapError .type) := by
  simp only [result, andThen, bind_assoc, pure_bind]
  refine bind_congr fun c => ?_
  rw [step, Operation.applyTo_quiet, if_neg (show Operation.length.distributes ≠ true from nofun), Operation.apply]
  cases c.value.length <;> rfl

theorem result_filter_array (items : List Value) : (filter f).result d (.array items) = (do
    let kept ← keepItems (fun item => do return (← f.value item).isTruthy) items
    return .array kept) := by
  simp only [result, filter, Current.spread, bind_assoc, pure_bind, Current.value]

theorem result_list (fs : List Meaning) : (list fs).result d v =
    if v.isNull then return .null
    else do
      let results ← fs.mapM (·.value v)
      return .array results := by
  simp only [result, list, Current.spread]
  cases v.isNull <;> simp [Current.value]

end Meaning

/-! ### The meaning of a tree -/

mutual

/-- What an expression means, if it has a pipeline. -/
def Expr.meaning : Expr → Except CompileError Meaning
  | .selector s => s.meaning
  | .dot left s => do
    let f ← left.meaning
    let g ← s.meaning
    return f.andThen g
  | .index b => b.meaning
  | .indexOf left b => do
    let f ← left.meaning
    let g ← b.meaning
    return f.andThen g
  | .binary (.compare c) left right => do
    let f ← left.meaning
    let g ← right.meaning
    return .compare c f g
  | .binary .or left right => do
    let f ← left.meaning
    let g ← right.meaning
    return .or f g
  | .binary .and left right => do
    let f ← left.meaning
    let g ← right.meaning
    return .and f g
  | .binary .pipe _ _ => throw (.unsupported .pipe)
  | .not e => do
    let f ← e.meaning
    return .not f
  | .paren e => e.meaning
  | .literal v => return .step (.constant (Value.ofJson v))
  | .raw text => return .step (.constant (.string text))
  | .current => throw (.unsupported .currentNode)

/-- What a selector means, if it has a pipeline. -/
def Selector.meaning : Selector → Except CompileError Meaning
  | .identifier name => return .step (.field name)
  | .star => return .step .wildcard
  | .list es => do
    let fs ← Expr.meanings es
    return .list fs
  | .hash _ => throw (.unsupported .hash)
  | .call name arguments =>
    if name = "length" then
      match arguments with
      | [.value e] => do
        let f ← e.meaning
        return f.andThen (.step .length)
      | _ => throw (.invalidArguments name (argumentFault 1 arguments))
    else if name = "contains" then
      match arguments with
      | [.value e, .value e'] => do
        let f ← e.meaning
        let g ← e'.meaning
        return .contains f g
      | _ => throw (.invalidArguments name (argumentFault 2 arguments))
    else throw (.unknownFunction name)

/-- What a bracket means, if it has a pipeline. -/
def Bracket.meaning : Bracket → Except CompileError Meaning
  | .flatten => return .step .flatten
  | .number n => return .step (.index n)
  | .star => return .step .wildcard
  | .slice _ => throw (.unsupported .slice)
  | .filter e => do
    let f ← e.meaning
    return .filter f

/-- What the entries of a list mean, if all have pipelines. -/
def Expr.meanings : List Expr → Except CompileError (List Meaning)
  | [] => return []
  | e :: es => do
    let f ← e.meaning
    let fs ← Expr.meanings es
    return f :: fs

end

/-! ### What operations perform -/

/-- Wherever `x` stands for the value of the scope, the operations do what `f` says. -/
def Operation.Performs (x : String) (ops : List Operation) (f : Meaning) : Prop :=
  ∀ b d c, Fields.lookup x b = some d → applyAll quiet b ops c = f d c

/-- Whatever is bound around it, a pipeline with its variable bound to a value gives what `f` says. -/
def Pipeline.Performs (p : Pipeline) (f : Meaning) : Prop :=
  ∀ b v, p.run quiet ((p.subject, v) :: b) = f.value v

namespace Operation.Performs

variable {x : String} {ops more : List Operation} {f g : Meaning}

theorem append (h : Performs x ops f) (h' : Performs x more g) : Performs x (ops ++ more) (f.andThen g) := by
  intro b d c hd
  rw [applyAll_append, h b d c hd]
  exact bind_congr fun c => h' b d c hd

/-- An operation that does not look at the bindings. -/
theorem step {op : Operation} (h : ∀ b, op.apply quiet b = op.apply quiet []) : Performs x [op] (.step op) := by
  intro b d c _
  rw [applyAll_singleton, h]
  rfl

/-- The result of a pipeline on the variable of its scope. -/
theorem run (h : Performs x ops f) {b : Bindings} {d : Value} (hd : Fields.lookup x b = some d) :
    (Pipeline.mk x ops).run quiet b = f.value d := by
  rw [Pipeline.run_of_lookup hd, h b d _ hd]
  rfl

/-- The result of a pipeline with a scope of its own. -/
theorem pipeline (h : Performs x ops f) : (Pipeline.mk x ops).Performs f := fun _ _ =>
  h.run (if_pos rfl)

/-- An operation that takes the current value as one, after others. -/
theorem whole {op : Operation} {k : Meaning} (h : Performs x ops f) (hop : op.distributes = false)
    (hk : ∀ b d c, Fields.lookup x b = some d → op.apply quiet b c.value = k d c) :
    Performs x (ops ++ [op]) (f.andThen k) := by
  refine h.append fun b d c hd => ?_
  rw [applyAll_singleton, applyTo_quiet, hop, ← hk b d c hd]
  rfl

/-- An operation that takes the current value as one together with a right side. -/
theorem withRight {op : Operation} {k : Value → Except EvalError Value → Except EvalError Current}
    (h : Performs x ops f) (h' : Performs x more g) (hop : op.distributes = false)
    (hk : ∀ b v, op.apply quiet b v = k v ((Pipeline.mk x more).run quiet b)) :
    Performs x (ops ++ [op]) (.withRight k f g) :=
  h.whole hop fun b d c hd => by rw [hk, h'.run hd]

end Operation.Performs

/-- What a pipeline gives on a document. -/
theorem Pipeline.evaluate_of_performs {p : Pipeline} {f : Meaning}
    (h : Operation.Performs p.subject p.operations f) (d : Value) : p.evaluate d = f.value d := by
  obtain ⟨x, ops⟩ := p
  exact h.pipeline [] d

/-- The results of branches, each in a scope of its own. -/
theorem Pipeline.runBranches_of_performs {ps : List Pipeline} {fs : List Meaning}
    (h : List.Forall₂ Performs ps fs) (b : Bindings) (v : Value) :
    runBranches quiet b v ps = fs.mapM (·.value v) := by
  induction h with
  | nil => rfl
  | cons hp _ ih => rw [runBranches, List.mapM_cons, hp, ih]

/-! ### The compiler keeps to the meaning -/

open Operation

/-- A body with a scope of its own has a pipeline that does what the body means. -/
theorem Expr.scoped_meaning {e : Expr} {s : Scope}
    (h : ∀ inner : Scope, Follows (Performs inner.subject) (e.operations inner) e.meaning) :
    Follows Pipeline.Performs
      (inScope s fun inner => do
        let ops ← e.operations inner
        return Pipeline.mk inner.subject ops) e.meaning := by
  refine .inScope fun inner => ?_
  rw [← bind_pure e.meaning]
  exact (h inner).bind fun ops f hf => .pure hf.pipeline

mutual

/-- **The operations of an expression do what it means**, or there are none for the reason that
it has no meaning. -/
theorem Expr.operations_meaning (s : Scope) : ∀ e : Expr,
    Follows (Performs s.subject) (e.operations s) e.meaning
  | .selector sel => by
    rw [Expr.operations, Expr.meaning]
    exact sel.operations_meaning s
  | .dot left sel => by
    rw [Expr.operations, Expr.meaning]
    refine (left.operations_meaning s).bind fun ops f hf => ?_
    refine (sel.operations_meaning s).bind fun more g hg => ?_
    exact .pure (hf.append hg)
  | .index b => by
    rw [Expr.operations, Expr.meaning]
    exact b.operations_meaning s
  | .indexOf left b => by
    rw [Expr.operations, Expr.meaning]
    refine (left.operations_meaning s).bind fun ops f hf => ?_
    refine (b.operations_meaning s).bind fun more g hg => ?_
    exact .pure (hf.append hg)
  | .binary (.compare _) left right | .binary .or left right | .binary .and left right => by
    rw [Expr.operations, Expr.meaning]
    refine (left.operations_meaning s).bind fun ops f hf => ?_
    refine (right.operations_meaning s).bind fun other g hg => ?_
    exact .pure (hf.withRight hg rfl fun b v => rfl)
  | .binary .pipe _ _ => .throw _
  | .not e => by
    rw [Expr.operations, Expr.meaning]
    refine (e.operations_meaning s).bind fun ops f hf => .pure fun b d c hd => ?_
    have hnot : Performs s.subject (ops ++ [.not]) (f.andThen fun _ c => return .single (.boolean (!c.value.isTruthy))) :=
      hf.whole rfl fun _ _ _ _ => rfl
    rw [applyAll_singleton, applyTo_quiet]
    rw [if_neg (show (constantOf (.mk s.subject (ops ++ [.not]))).distributes ≠ true from nofun), apply, hnot.run hd]
    rw [Meaning.not, Meaning.value, Meaning.result, Meaning.andThen, Meaning.value, Meaning.result]
    cases f d (.single d) <;> rfl
  | .paren e => by
    rw [Expr.operations, Expr.meaning]
    exact e.operations_meaning s
  | .literal v => .pure (.step fun _ => rfl)
  | .raw text => .pure (.step fun _ => rfl)
  | .current => .throw _

/-- The same for a selector. -/
theorem Selector.operations_meaning (s : Scope) : ∀ sel : Selector,
    Follows (Performs s.subject) (sel.operations s) sel.meaning
  | .identifier name => .pure (.step fun _ => rfl)
  | .star => .pure (.step fun _ => rfl)
  | .list es => by
    rw [Selector.operations, Selector.meaning]
    refine (Expr.branches_meaning s es).bind fun ps fs hps => .pure fun b d c _ => ?_
    rw [applyAll_singleton, applyTo_quiet, if_pos (show (multiSelect ps).distributes = true from rfl), Meaning.list]
    congr 1
    funext v
    rw [apply, Pipeline.runBranches_of_performs hps]
  | .hash _ => .throw _
  | .call name [.value e] => by
    unfold Selector.operations Selector.meaning
    split
    · refine (e.operations_meaning s).bind fun ops f hf => .pure ?_
      exact hf.append (.step fun _ => rfl)
    · split <;> exact .throw _
  | .call name [.value e, .value e'] => by
    unfold Selector.operations Selector.meaning
    split
    · exact .throw _
    · split
      · refine (e.operations_meaning s).bind fun ops f hf => ?_
        refine (e'.operations_meaning s).bind fun other g hg => ?_
        exact .pure (hf.withRight hg rfl fun b v => rfl)
      · exact .throw _
  | .call name [] | .call name (.reference _ :: _) | .call name (.value _ :: .reference _ :: _)
  | .call name (.value _ :: .value _ :: _ :: _) => by
    unfold Selector.operations Selector.meaning
    split
    · exact .throw _
    · split <;> exact .throw _

/-- The same for a bracket. -/
theorem Bracket.operations_meaning (s : Scope) : ∀ b : Bracket,
    Follows (Performs s.subject) (b.operations s) b.meaning
  | .flatten => .pure (.step fun _ => rfl)
  | .number n => .pure (.step fun _ => rfl)
  | .star => .pure (.step fun _ => rfl)
  | .slice _ => .throw _
  | .filter e => by
    rw [Bracket.operations, Bracket.meaning]
    refine (Expr.scoped_meaning fun inner => e.operations_meaning inner).bind fun p f hp => .pure fun b d c _ => ?_
    rw [applyAll_singleton, applyTo_quiet, if_pos (show (filter p).distributes = true from rfl), Meaning.filter]
    congr 1
    funext v
    cases v with
    | array items =>
      rw [apply]
      simp only [hp b]
    | _ => rfl

/-- The same for the branches of a list. -/
theorem Expr.branches_meaning (s : Scope) : ∀ es : List Expr,
    Follows (List.Forall₂ Pipeline.Performs) (Expr.branches s es) (Expr.meanings es)
  | [] => .pure .nil
  | e :: es => by
    rw [Expr.branches, Expr.meanings]
    refine (Expr.scoped_meaning fun inner => e.operations_meaning inner).bind fun p f hp => ?_
    refine (Expr.branches_meaning s es).bind fun ps fs hps => ?_
    exact .pure (.cons hp hps)

end

/-- The pipeline of an expression has the operations that do what the expression means, or there
is none for the reason that it has no meaning. -/
theorem Expr.compile_meaning (e : Expr) (subject : String) :
    Follows (fun p f => p.subject = subject ∧ Performs subject p.operations f) (e.compile subject) e.meaning := by
  rw [Expr.compile, ← bind_pure e.meaning]
  exact (e.operations_meaning (.root subject)).bind fun ops f hf => .pure ⟨rfl, hf⟩

end PathQuery
