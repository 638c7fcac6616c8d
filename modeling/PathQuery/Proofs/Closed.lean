/-
# Runs of closed pipelines

A pipeline is closed if every pipeline in it reads its variable or one that is bound around it by a
filter or a list. Its run finds every variable that it looks up, and so has no error but that of a
function (`Pipeline.run_failsOnly`).

The pipelines of expressions are closed, and call functions where the expressions do. So without
calls an expression that has a pipeline has a result on every document
(`Pipeline.closed_runs`).

Key definitions: `Pipeline.closed`, `Pipeline.calls`, `Pipeline.Runs`.
Key theorems: `Pipeline.run_failsOnly`, `Expr.operations_calls`, `Pipeline.closed_runs`.
-/
import PathQuery.Proofs.Running
import PathQuery.Proofs.Scoping
import PathQuery.Proofs.Supported

namespace PathQuery

/-- Whether every pipeline inside reads the variable of the whole or one bound around it. -/
def Pipeline.closed (p : Pipeline) : Bool := p.closedIn [p.subject]

mutual

/-- Whether a pipeline calls a function, at any depth. -/
def Pipeline.calls : Pipeline → Bool
  | .mk _ ops => Operation.anyCalls ops

/-- Whether one of some operations calls a function. -/
def Operation.anyCalls : List Operation → Bool
  | [] => false
  | op :: ops => op.calls || Operation.anyCalls ops

/-- Whether an operation is a call of a function or holds one. -/
def Operation.calls : Operation → Bool
  | .length | .contains _ => true
  | .filter p | .compare _ p | .or p | .and p | .constantOf p => p.calls
  | .multiSelect ps => Pipeline.anyCalls ps
  | _ => false

/-- Whether one of some branches calls a function. -/
def Pipeline.anyCalls : List Pipeline → Bool
  | [] => false
  | p :: ps => p.calls || Pipeline.anyCalls ps

end

/-! ### Errors of a run -/

namespace FailsOnly

variable {P : EvalError → Prop}

theorem orTypeError (h : ∀ fault, P (.type fault)) (r : Except TypeFault Value) :
    FailsOnly P (orTypeError r : Except EvalError Current) := by
  cases r with
  | error fault => exact .error (h fault)
  | ok v => exact .ok _

theorem eachItem {action : Value → Except EvalError Current} (h : ∀ v, FailsOnly P (action v)) :
    ∀ items, FailsOnly P (eachItem action items)
  | [] => .ok _
  | v :: rest => (h v).bind fun _ => (eachItem h rest).bind fun _ => .ok _

theorem keepItems {test : Value → Except EvalError Bool} (h : ∀ v, FailsOnly P (test v)) :
    ∀ items, FailsOnly P (keepItems test items)
  | [] => .ok _
  | v :: rest => (h v).bind fun _ => (keepItems h rest).bind fun _ => .ok _

theorem applyTo {op : Operation} {one : Value → Except EvalError Current} (h : ∀ v, FailsOnly P (one v)) (c : Current) :
    FailsOnly P (op.applyTo quiet one c) := by
  rw [Operation.applyTo_quiet]
  split
  · cases c with
    | single v => exact h v
    | projection items => exact (eachItem h items).bind fun _ => .ok _
  · exact h c.value

end FailsOnly

/-! ### Runs -/

/-- Bindings that give every variable in scope a value. -/
def Bindings.Cover (scope : List String) (b : Bindings) : Prop :=
  ∀ x, scope.contains x = true → ∃ v, Fields.lookup x b = some v

theorem Bindings.Cover.bind {scope : List String} {b : Bindings} (h : b.Cover scope) (x : String) (v : Value) :
    Bindings.Cover (x :: scope) ((x, v) :: b) := by
  intro y hy
  rw [Fields.lookup]
  by_cases hxy : x = y
  · exact ⟨v, if_pos hxy⟩
  · rw [if_neg hxy]
    exact h y (by simpa [Ne.symm hxy] using hy)

section

variable {P : EvalError → Prop}

mutual

/-- **A run in which every variable is bound has no error but that of a function.** -/
theorem Pipeline.run_failsOnly {scope : List String} {b : Bindings} (hb : b.Cover scope) : ∀ p : Pipeline,
    p.closedIn scope = true → (p.calls = true → ∀ fault, P (.type fault)) → FailsOnly P (p.run quiet b)
  | .mk x ops, hp, hcalls => by
    rw [Pipeline.closedIn, Bool.and_eq_true] at hp
    rw [Pipeline.calls] at hcalls
    obtain ⟨v, hv⟩ := hb x hp.1
    rw [Pipeline.run_of_lookup hv]
    exact (Operation.applyAll_failsOnly hb ops hp.2 hcalls _).bind fun c => .ok _

/-- The same for operations in a row. -/
theorem Operation.applyAll_failsOnly {scope : List String} {b : Bindings} (hb : b.Cover scope) :
    ∀ ops : List Operation, Operation.allClosedIn scope ops = true →
      (Operation.anyCalls ops = true → ∀ fault, P (.type fault)) →
      ∀ c, FailsOnly P (Operation.applyAll quiet b ops c)
  | [], _, _, c => .ok c
  | op :: ops, hops, hcalls, c => by
    rw [Operation.allClosedIn, Bool.and_eq_true] at hops
    rw [Operation.anyCalls, Bool.or_eq_true] at hcalls
    rw [Operation.applyAll]
    refine (FailsOnly.applyTo (Operation.apply_failsOnly hb op hops.1 fun h => hcalls (.inl h)) c).bind ?_
    exact Operation.applyAll_failsOnly hb ops hops.2 fun h => hcalls (.inr h)

/-- The same for an operation. -/
theorem Operation.apply_failsOnly {scope : List String} {b : Bindings} (hb : b.Cover scope) : ∀ op : Operation,
    op.closedIn scope = true → (op.calls = true → ∀ fault, P (.type fault)) →
      ∀ v, FailsOnly P (op.apply quiet b v)
  | .filter p, hop, hcalls, .array items => by
    rw [Operation.closedIn] at hop
    rw [Operation.calls] at hcalls
    rw [Operation.apply]
    refine (FailsOnly.keepItems (fun item => ?_) items).bind fun kept => .ok _
    exact (Pipeline.run_failsOnly (hb.bind p.subject item) p hop hcalls).bind fun result => .ok _
  | .compare c p, hop, hcalls, v => by
    rw [Operation.closedIn] at hop
    rw [Operation.calls] at hcalls
    rw [Operation.apply]
    exact (Pipeline.run_failsOnly hb p hop hcalls).bind fun other => .ok _
  | .or p, hop, hcalls, v => by
    rw [Operation.closedIn] at hop
    rw [Operation.calls] at hcalls
    rw [Operation.apply]
    split
    · exact .ok _
    · exact (Pipeline.run_failsOnly hb p hop hcalls).map _
  | .and p, hop, hcalls, v => by
    rw [Operation.closedIn] at hop
    rw [Operation.calls] at hcalls
    rw [Operation.apply]
    split
    · exact (Pipeline.run_failsOnly hb p hop hcalls).map _
    · exact .ok _
  | .constantOf p, hop, hcalls, v => by
    rw [Operation.closedIn] at hop
    rw [Operation.calls] at hcalls
    rw [Operation.apply]
    exact (Pipeline.run_failsOnly hb p hop hcalls).map _
  | .length, _, hcalls, v => by
    rw [Operation.apply]
    exact .orTypeError (hcalls rfl) _
  | .contains p, hop, hcalls, v => by
    rw [Operation.closedIn] at hop
    rw [Operation.apply]
    exact (Pipeline.run_failsOnly hb p hop fun _ => hcalls rfl).bind fun needle => .orTypeError (hcalls rfl) _
  | .multiSelect ps, hop, hcalls, v => by
    rw [Operation.closedIn] at hop
    rw [Operation.calls] at hcalls
    rw [Operation.apply]
    split
    · exact .ok _
    · exact (Pipeline.runBranches_failsOnly hb v ps hop hcalls).bind fun results => .ok _
  | .field _, _, _, _ | .index _, _, _, _ | .not, _, _, _ | .constant _, _, _, _ => .ok _
  | .flatten, _, _, v | .wildcard, _, _, v => by cases v <;> exact .ok _
  | .filter _, _, _, .null | .filter _, _, _, .boolean _ | .filter _, _, _, .number _ | .filter _, _, _, .string _
  | .filter _, _, _, .object _ => .ok _

/-- The same for branches. -/
theorem Pipeline.runBranches_failsOnly {scope : List String} {b : Bindings} (hb : b.Cover scope) (v : Value) :
    ∀ ps : List Pipeline, Pipeline.branchesClosedIn scope ps = true →
      (Pipeline.anyCalls ps = true → ∀ fault, P (.type fault)) → FailsOnly P (Pipeline.runBranches quiet b v ps)
  | [], _, _ => .ok _
  | p :: ps, hps, hcalls => by
    rw [Pipeline.branchesClosedIn, Bool.and_eq_true] at hps
    rw [Pipeline.anyCalls, Bool.or_eq_true] at hcalls
    rw [Pipeline.runBranches]
    refine (Pipeline.run_failsOnly (hb.bind p.subject v) p hps.1 fun h => hcalls (.inl h)).bind fun result => ?_
    exact (Pipeline.runBranches_failsOnly hb v ps hps.2 fun h => hcalls (.inr h)).bind fun results => .ok _

end

end

/-! ### Calls in the pipelines of expressions -/

/-- Whether a site is a call of a function. -/
def Site.isCall : Site → Bool
  | .selector (.call _ _) => true
  | _ => false

theorem Operation.anyCalls_append (ops more : List Operation) :
    anyCalls (ops ++ more) = (anyCalls ops || anyCalls more) := by
  induction ops with
  | nil => rfl
  | cons op ops ih => rw [List.cons_append, anyCalls, anyCalls, ih, Bool.or_assoc]

/-- The operations of a side, and what is made of it, call functions where its sites do. -/
theorem Operation.anyCalls_side {ops other : List Operation} {x : String} {op : Operation}
    (h : op.calls = (Pipeline.mk x other).calls) : anyCalls (ops ++ [op]) = (anyCalls ops || anyCalls other) := by
  rw [anyCalls_append, anyCalls, anyCalls, h, Pipeline.calls, Bool.or_false]

/-- A body with a scope of its own calls functions where its sites do. -/
theorem Expr.scoped_calls {e : Expr} {s : Scope}
    (h : ∀ inner : Scope, Ensures (fun ops => Operation.anyCalls ops = e.sites.any Site.isCall) (e.operations inner)) :
    Ensures (fun p => p.calls = e.sites.any Site.isCall)
      (inScope s fun inner => do
        let ops ← e.operations inner
        return Pipeline.mk inner.subject ops) :=
  .inScope fun inner => (h inner).bind fun _ hops => .pure hops

mutual

/-- **The operations of an expression call functions where the expression does.** -/
theorem Expr.operations_calls (s : Scope) : ∀ e : Expr,
    Ensures (fun ops => Operation.anyCalls ops = e.sites.any Site.isCall) (e.operations s)
  | .selector sel => by
    rw [Expr.operations, Expr.sites]
    exact sel.operations_calls s
  | .dot left sel => by
    rw [Expr.operations, Expr.sites]
    refine (left.operations_calls s).bind fun ops hops => (sel.operations_calls s).bind fun more hmore => .pure ?_
    rw [Operation.anyCalls_append, hops, hmore, List.any_append]
  | .index b => by
    rw [Expr.operations, Expr.sites]
    exact b.operations_calls s
  | .indexOf left b => by
    rw [Expr.operations, Expr.sites]
    refine (left.operations_calls s).bind fun ops hops => (b.operations_calls s).bind fun more hmore => .pure ?_
    rw [Operation.anyCalls_append, hops, hmore, List.any_append]
  | .binary (.compare _) left right | .binary .or left right | .binary .and left right => by
    rw [Expr.operations, Expr.sites]
    refine (left.operations_calls s).bind fun ops hops => (right.operations_calls s).bind fun other hother => .pure ?_
    rw [Operation.anyCalls_side (show _ = (Pipeline.mk s.subject other).calls from rfl), hops, hother, List.any_cons,
      List.any_append]
    rfl
  | .binary .pipe _ _ => .throw _
  | .not e => by
    rw [Expr.operations, Expr.sites]
    refine (e.operations_calls s).bind fun ops hops => .pure ?_
    have hnot : Operation.anyCalls (ops ++ [.not]) = Operation.anyCalls ops := by
      rw [Operation.anyCalls_append]
      exact Bool.or_false _
    rw [← hops, ← hnot]
    exact Bool.or_false _
  | .paren e => by
    rw [Expr.operations, Expr.sites]
    exact e.operations_calls s
  | .literal _ | .raw _ => .pure rfl
  | .current => .throw _

/-- The same for a selector. -/
theorem Selector.operations_calls (s : Scope) : ∀ sel : Selector,
    Ensures (fun ops => Operation.anyCalls ops = sel.sites.any Site.isCall) (sel.operations s)
  | .identifier _ | .star => .pure rfl
  | .list es => by
    rw [Selector.operations, Selector.sites]
    refine (Expr.branches_calls s es).bind fun ps hps => .pure ?_
    rw [List.any_cons, ← hps]
    exact Bool.or_false _
  | .hash _ => .throw _
  | .call name arguments => by
    unfold Selector.operations
    split
    · split
      · rename_i e
        refine (e.operations_calls s).bind fun ops _ => .pure ?_
        rw [Operation.anyCalls_append]
        exact Bool.or_true _
      · exact .throw _
    · split
      · split
        · rename_i e e'
          refine (e.operations_calls s).bind fun ops _ => (e'.operations_calls s).bind fun other _ => .pure ?_
          rw [Operation.anyCalls_append]
          exact Bool.or_true _
        · exact .throw _
      · exact .throw _

/-- The same for a bracket. -/
theorem Bracket.operations_calls (s : Scope) : ∀ b : Bracket,
    Ensures (fun ops => Operation.anyCalls ops = b.sites.any Site.isCall) (b.operations s)
  | .flatten | .number _ | .star => .pure rfl
  | .slice _ => .throw _
  | .filter e => by
    rw [Bracket.operations, Bracket.sites]
    refine (Expr.scoped_calls fun inner => e.operations_calls inner).bind fun p hp => .pure ?_
    rw [List.any_cons, ← hp]
    exact Bool.or_false _

/-- The same for the branches of a list. -/
theorem Expr.branches_calls (s : Scope) : ∀ es : List Expr,
    Ensures (fun ps => Pipeline.anyCalls ps = (Expr.sitesAll es).any Site.isCall) (Expr.branches s es)
  | [] => .pure rfl
  | e :: es => by
    rw [Expr.branches, Expr.sitesAll]
    refine (Expr.scoped_calls fun inner => e.operations_calls inner).bind fun p hp => ?_
    refine (Expr.branches_calls s es).bind fun ps hps => .pure ?_
    rw [Pipeline.anyCalls, hp, hps, List.any_append]

end

/-! ### Closed pipelines -/

/-- A pipeline that finds its variables on every document, and fails in functions only. -/
structure Pipeline.Runs (p : Pipeline) : Prop where
  bound : ∀ d x, p.evaluate d ≠ .error (.unbound x)
  typed : ∀ d fault, p.evaluate d = .error (.type fault) → p.calls = true

theorem Pipeline.evaluate_failsOnly {p : Pipeline} (h : p.closed = true) (d : Value) :
    FailsOnly (fun error => p.calls = true ∧ ∃ fault, error = .type fault) (p.evaluate d) := by
  have hcover : Bindings.Cover [p.subject] [(p.subject, d)] := fun x hx =>
    ⟨d, if_pos (by simpa [eq_comm] using hx)⟩
  exact p.run_failsOnly hcover h fun hcalls fault => ⟨hcalls, fault, rfl⟩

theorem Pipeline.runs_of_closed {p : Pipeline} (h : p.closed = true) : p.Runs where
  bound d x hx := by
    obtain ⟨-, fault, hfault⟩ := evaluate_failsOnly h d _ hx
    cases hfault
  typed d fault hfault := (evaluate_failsOnly h d _ hfault).1

theorem Expr.compile_calls (e : Expr) (subject : String) :
    Ensures (fun p => p.calls = e.sites.any Site.isCall) (e.compile subject) := by
  rw [Expr.compile]
  exact (e.operations_calls (.root subject)).bind fun _ hops => .pure hops

/-- **Closed pipelines run.** A closed pipeline finds every variable, on every document, and only a
function in it can fail. The pipelines of expressions are closed, so those of expressions without
calls have results. -/
theorem Pipeline.closed_runs :
    (∀ p : Pipeline, p.closed = true → p.Runs) ∧
    ∀ (e : Expr) (subject : String) (n : Naming) (p : Pipeline), (e.compile subject n).1 = .ok p →
      p.closed = true ∧ ((∀ s ∈ e.sites, s.isCall = false) → ∀ d, ∃ v, p.evaluate d = .ok v) := by
  refine ⟨fun p => runs_of_closed, fun e subject n p hp => ?_⟩
  have hclosed : p.closed = true := e.compile_closed subject n p hp
  refine ⟨hclosed, fun hsites d => ?_⟩
  have hnone : p.calls = false := by
    rw [e.compile_calls subject n p hp]
    exact List.any_eq_false.2 fun s hs => by rw [hsites s hs]; nofun
  cases hd : p.evaluate d with
  | ok v => exact ⟨v, rfl⟩
  | error error =>
    have hsome := (evaluate_failsOnly hclosed d _ hd).1
    rw [hnone] at hsome
    cases hsome

/-- A filter that reads the variable around it, and one compiled under the name that its own
variable gets. -/
theorem Pipeline.closed_runs_filter :
    let p : Pipeline := .mk "r" [.field "a", .filter (.mk "x" [.compare .eq (.mk "r" [.field "k"]), .length])]
    let e : Expr := .indexOf (.selector (.identifier "a"))
      (.filter (.binary .or (.selector (.identifier "k")) (.not (.selector (.identifier "l")))))
    let q : Pipeline := .mk "x0" [.field "a", .filter (.mk "x0" [.field "k",
      .or (.mk "x0" [.constantOf (.mk "x0" [.field "l", .not])])])]
    p.closed = true ∧ p.Runs ∧ (e.compile "x0" (.start "x")).1 = .ok q ∧ (∀ s ∈ e.sites, s.isCall = false) ∧
      q.closed = true ∧ ∀ d, ∃ v, q.evaluate d = .ok v := by
  intro p e q
  have hp : p.closed = true := by decide
  have hq : (e.compile "x0" (.start "x")).1 = .ok q := rfl
  have he : ∀ s ∈ e.sites, s.isCall = false := fun s hs =>
    Bool.eq_false_iff.2 (List.any_eq_false.1 (show e.sites.any Site.isCall = false from rfl) s hs)
  obtain ⟨hclosed, hvalue⟩ := Pipeline.closed_runs.2 e "x0" (.start "x") q hq
  exact ⟨hp, Pipeline.closed_runs.1 p hp, hq, he, hclosed, hvalue he⟩

end PathQuery
