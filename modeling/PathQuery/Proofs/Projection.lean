/-
# Steps after a wildcard

A wildcard makes a projection of an array, and the steps after it are done on each item. An item
goes through them in turn, each step taking all of what the one before gave as one value
(`Operation.inTurn`), and what becomes null is left out (`Pipeline.evaluate_wildcard`).

So a step that makes a projection of an item itself, a wildcard or a filter, is not gone on with
item by item: `a[*].b[*].c` looks for `c` in the arrays under `b`, and not in their items
(`Pipeline.evaluate_wildcard_inner`). Where no such step comes before the last, the steps give for
an array the array of what they give for the items.

Key definitions: `Operation.inTurn`, `Operation.projects`, `Operation.IsStep`.
Key theorems: `Operation.applyAll_projection`, `Pipeline.evaluate_wildcard`.
-/
import PathQuery.Proofs.Outcome
import PathQuery.Proofs.Running
import PathQuery.Proofs.Scoping

namespace PathQuery

namespace Operation

/-- What a value becomes step by step, each step done to all of what the one before gave. -/
def inTurn : List Operation → Value → Except EvalError Value
  | [], v => return v
  | op :: ops, v => do
    let c ← op.apply quiet [] v
    inTurn ops c.value

/-- Whether an operation makes a projection of a value. -/
def projects : Operation → Bool
  | .flatten | .wildcard | .filter _ => true
  | _ => false

/-- An operation that goes through the items of a projection and reads nothing from outside. -/
structure IsStep (op : Operation) : Prop where
  distributes : op.distributes = true
  closed : op.closedIn [] = true

variable {op : Operation} {ops : List Operation} {b : Bindings}

/-- A step does the same whatever is bound around it. -/
theorem IsStep.apply (h : op.IsStep) (b : Bindings) : op.apply quiet b = op.apply quiet [] :=
  apply_congr op h.closed nofun

theorem IsStep.applyTo (h : op.IsStep) (b : Bindings) (c : Current) :
    op.applyTo quiet (op.apply quiet b) c = c.spread (op.apply quiet []) := by
  rw [applyTo_quiet, if_pos h.distributes, h.apply b]

/-- Null stays null. -/
theorem IsStep.apply_null (h : op.IsStep) : op.apply quiet [] .null = .ok (.single .null) := by
  have hd := h.distributes
  cases op with
  | field _ | index _ | wildcard | filter _ | multiSelect _ => rfl
  | _ => cases hd

theorem inTurn_null (h : ∀ op ∈ ops, op.IsStep) : inTurn ops .null = .ok .null := by
  induction ops with
  | nil => rfl
  | cons op ops ih =>
    obtain ⟨hop, hops⟩ := List.forall_mem_cons.1 h
    rw [inTurn, hop.apply_null]
    exact ih hops

/-- A step that makes no projection leaves one value. -/
theorem IsStep.apply_eq_single (h : op.IsStep) (hop : op.projects = false) {v : Value} {c : Current}
    (hc : op.apply quiet [] v = .ok c) : c = .single c.value := by
  have hd := h.distributes
  cases op with
  | field _ | index _ => cases hc; rfl
  | multiSelect ps =>
    rw [Operation.apply] at hc
    split at hc
    · cases hc; rfl
    · obtain ⟨results, -, hc⟩ := bind_eq_ok.1 hc
      cases hc; rfl
  | wildcard | filter _ => cases hop
  | _ => cases hd

/-- Steps of which only the last makes a projection give what they give in turn. -/
theorem value_applyAll (hops : ∀ op ∈ ops, op.IsStep) (hinner : ∀ op ∈ ops.dropLast, op.projects = false) (v : Value) :
    (do let c ← applyAll quiet b ops (.single v); return c.value) = inTurn ops v := by
  induction ops generalizing v with
  | nil => rfl
  | cons op ops ih =>
    obtain ⟨hop, hops⟩ := List.forall_mem_cons.1 hops
    rw [applyAll, inTurn, hop.applyTo, bind_assoc]
    cases ops with
    | nil => rfl
    | cons next rest =>
      obtain ⟨hlast, hinner⟩ := List.forall_mem_cons.1 hinner
      rw [Current.spread]
      cases hc : op.apply quiet [] v with
      | error e => rfl
      | ok c =>
        rw [hop.apply_eq_single hlast hc]
        exact ih hops hinner c.value

end Operation

/-! ### Items one by one -/

theorem Value.eq_null_of_isNull {v : Value} (h : v.isNull = true) : v = .null := by
  cases v with
  | null => rfl
  | _ => cases h

section

variable {f : Value → Except EvalError Current} {g : Value → Except EvalError Value}

/-- What comes of the items in two steps. -/
theorem forall₂_bind {vs rs : List Value} :
    (∃ cs, List.Forall₂ (fun v c => f v = .ok c) vs cs ∧
        List.Forall₂ (fun w r => g w = .ok r) (cs.map Current.value) rs) ↔
      List.Forall₂ (fun v r => (do let c ← f v; g c.value) = .ok r) vs rs := by
  induction vs generalizing rs with
  | nil =>
    simp only [List.forall₂_nil_left_iff, exists_eq_left, List.map_nil]
  | cons v vs ih =>
    constructor
    · rintro ⟨_, hall, hall'⟩
      obtain ⟨c, cs, hc, hcs, rfl⟩ := List.forall₂_cons_left_iff.1 hall
      obtain ⟨r, rs, hr, hrs, rfl⟩ := List.forall₂_cons_left_iff.1 hall'
      exact .cons (bind_eq_ok.2 ⟨c, hc, hr⟩) (ih.1 ⟨cs, hcs, hrs⟩)
    · intro h
      obtain ⟨r, rs, hr, hrs, rfl⟩ := List.forall₂_cons_left_iff.1 h
      obtain ⟨c, hc, hr⟩ := bind_eq_ok.1 hr
      obtain ⟨cs, hcs, hrs⟩ := ih.2 hrs
      exact ⟨c :: cs, .cons hc hcs, .cons hr hrs⟩

/-- Nulls that stay nulls may be left out before or after. -/
theorem forall₂_filter_isNull (hnull : g .null = .ok .null) {P : List Value → Prop} {vs : List Value} :
    (∃ rs, List.Forall₂ (fun v r => g v = .ok r) (vs.filter (!·.isNull)) rs ∧ P (rs.filter (!·.isNull))) ↔
      ∃ rs, List.Forall₂ (fun v r => g v = .ok r) vs rs ∧ P (rs.filter (!·.isNull)) := by
  induction vs generalizing P with
  | nil => rfl
  | cons v vs ih =>
    cases hv : v.isNull with
    | true =>
      obtain rfl := Value.eq_null_of_isNull hv
      rw [List.filter_cons_of_neg (by rw [hv]; nofun), ih]
      constructor
      · rintro ⟨rs, hrs, h⟩
        exact ⟨.null :: rs, .cons hnull hrs, h⟩
      · rintro ⟨_, hall, h⟩
        obtain ⟨r, rs, hr, hrs, rfl⟩ := List.forall₂_cons_left_iff.1 hall
        obtain rfl : .null = r := Except.ok.inj (hnull.symm.trans hr)
        exact ⟨rs, hrs, h⟩
    | false =>
      have hcons (us : List Value) :
          (∃ rs, List.Forall₂ (fun v r => g v = .ok r) (v :: us) rs ∧ P (rs.filter (!·.isNull))) ↔
            ∃ r, g v = .ok r ∧
              ∃ rs, List.Forall₂ (fun v r => g v = .ok r) us rs ∧ P ((r :: rs).filter (!·.isNull)) := by
        constructor
        · rintro ⟨_, hall, h⟩
          obtain ⟨r, rs, hr, hrs, rfl⟩ := List.forall₂_cons_left_iff.1 hall
          exact ⟨r, hr, rs, hrs, h⟩
        · rintro ⟨r, hr, rs, hrs, h⟩
          exact ⟨r :: rs, .cons hr hrs, h⟩
      rw [List.filter_cons_of_pos (by rw [hv]; rfl), hcons, hcons]
      refine exists_congr fun r => and_congr_right fun _ => ?_
      simpa only [List.filter_cons] using ih (P := fun kept => P (if !r.isNull then r :: kept else kept))

end

namespace Operation

variable {op : Operation} {ops : List Operation} {b : Bindings}

/-- What comes of a projection in several steps, told from what comes of it in all but the first. -/
theorem applyAll_projection_of_rest (hop : op.IsStep)
    (hrest : ∀ (vs : List Value) (c : Current), applyAll quiet b ops (.projection (vs.filter (!·.isNull))) = .ok c ↔
      ∃ rs, List.Forall₂ (fun v r => inTurn ops v = .ok r) vs rs ∧ .projection (rs.filter (!·.isNull)) = c)
    (vs : List Value) (c : Current) : applyAll quiet b (op :: ops) (.projection vs) = .ok c ↔
      ∃ rs, List.Forall₂ (fun v r => inTurn (op :: ops) v = .ok r) vs rs ∧ .projection (rs.filter (!·.isNull)) = c := by
  rw [applyAll, hop.applyTo, Current.spread, bind_assoc, bind_eq_ok]
  simp only [inTurn, ← forall₂_bind, eachItem_eq_ok, pure_bind]
  constructor
  · rintro ⟨_, ⟨cs, hcs, rfl⟩, h⟩
    obtain ⟨rs, hrs, hc⟩ := (hrest _ c).1 h
    exact ⟨rs, ⟨cs, hcs, hrs⟩, hc⟩
  · rintro ⟨rs, ⟨cs, hcs, hrs⟩, hc⟩
    exact ⟨_, ⟨cs, hcs, rfl⟩, (hrest _ c).2 ⟨rs, hrs, hc⟩⟩

/-- What comes of a projection without nulls in any number of steps. -/
theorem applyAll_filter_isNull (hops : ∀ op ∈ ops, op.IsStep) (vs : List Value) (c : Current) :
    applyAll quiet b ops (.projection (vs.filter (!·.isNull))) = .ok c ↔
      ∃ rs, List.Forall₂ (fun v r => inTurn ops v = .ok r) vs rs ∧ .projection (rs.filter (!·.isNull)) = c := by
  induction ops generalizing vs c with
  | nil =>
    have hself : ∀ rs, List.Forall₂ (fun v r => inTurn [] v = .ok r) vs rs ↔ vs = rs := by
      intro rs
      rw [← List.forall₂_eq_eq_eq]
      exact ⟨fun h => h.imp fun _ _ => Except.ok.inj, fun h => h.imp fun _ _ => congrArg _⟩
    simp only [hself, exists_eq_left']
    exact ⟨Except.ok.inj, congrArg _⟩
  | cons op ops ih =>
    obtain ⟨hop, hrest⟩ := List.forall_mem_cons.1 hops
    rw [applyAll_projection_of_rest hop (ih hrest)]
    exact forall₂_filter_isNull (inTurn_null hops) (P := fun kept => .projection kept = c)

/-- **Steps take the items of a projection through in turn**, and leave out what becomes null. -/
theorem applyAll_projection (hne : ops ≠ []) (hops : ∀ op ∈ ops, op.IsStep) (vs : List Value) (c : Current) :
    applyAll quiet b ops (.projection vs) = .ok c ↔
      ∃ rs, List.Forall₂ (fun v r => inTurn ops v = .ok r) vs rs ∧ .projection (rs.filter (!·.isNull)) = c := by
  cases ops with
  | nil => exact absurd rfl hne
  | cons op ops =>
    obtain ⟨hop, hrest⟩ := List.forall_mem_cons.1 hops
    exact applyAll_projection_of_rest hop (applyAll_filter_isNull hrest) vs c

end Operation

/-- The operations of an expression that go through a projection are steps. -/
theorem Expr.operations_isStep (e : Expr) (s : Scope) :
    Ensures (fun ops => ∀ op ∈ ops, op.distributes = true → op.IsStep) (e.operations s) :=
  fun n ops h op hop hd => ⟨hd, e.operations_readsOnly s n ops h op hop [] (.inl hd)⟩

/-! ### Wildcards -/

/-- **What the steps after a wildcard make of an array.** They take its items through in turn, so
that if no step but the last makes a projection, they give the array of what they give for the
items. Nulls are left out. -/
theorem Pipeline.evaluate_wildcard {ops : List Operation} (hne : ops ≠ []) (hops : ∀ op ∈ ops, op.IsStep)
    (x : String) (vs : List Value) :
    (∀ w, (Pipeline.mk x (.wildcard :: ops)).evaluate (.array vs) = .ok w ↔
      ∃ rs, List.Forall₂ (fun v r => Operation.inTurn ops v = .ok r) vs rs ∧
        w = .array (rs.filter (!Value.isNull ·))) ∧
    ((∀ op ∈ ops.dropLast, op.projects = false) → ∀ rs,
      List.Forall₂ (fun v r => (Pipeline.mk x ops).evaluate v = .ok r) vs rs →
        (Pipeline.mk x (.wildcard :: ops)).evaluate (.array vs) = .ok (.array (rs.filter (!Value.isNull ·)))) := by
  have hwildcard (w : Value) : (Pipeline.mk x (.wildcard :: ops)).evaluate (.array vs) = .ok w ↔
      ∃ rs, List.Forall₂ (fun v r => Operation.inTurn ops v = .ok r) vs rs ∧
        w = .array (rs.filter (!Value.isNull ·)) := by
    have hrun : (Pipeline.mk x (.wildcard :: ops)).evaluate (.array vs) = do
        let c ← Operation.applyAll quiet [(x, .array vs)] ops (.projection vs)
        return c.value := evaluate_mk x (.wildcard :: ops) (.array vs)
    rw [hrun, bind_eq_ok]
    simp only [Operation.applyAll_projection hne hops]
    constructor
    · rintro ⟨_, ⟨rs, hrs, rfl⟩, h⟩
      exact ⟨rs, hrs, (Except.ok.inj h).symm⟩
    · rintro ⟨rs, hrs, rfl⟩
      exact ⟨_, ⟨rs, hrs, rfl⟩, rfl⟩
  refine ⟨hwildcard, fun hinner rs hrs => (hwildcard _).2 ⟨rs, hrs.imp fun v r h => ?_, rfl⟩⟩
  rw [← h, ← Operation.value_applyAll hops hinner v, evaluate_mk]

/-- A filter may stand last, and a wildcard among the steps is one more step. -/
theorem Pipeline.evaluate_wildcard_filter :
    let ops : List Operation := [.field "a", .filter (.mk "x0" [.field "k"])]
    let vs : List Value := [.object [("a", .array [.object [("k", .boolean true)], .null])], .object []]
    ops ≠ [] ∧ (∀ op ∈ ops, op.IsStep) ∧ (∀ op ∈ ops.dropLast, op.projects = false) ∧
      List.Forall₂ (fun v r => (Pipeline.mk "input" ops).evaluate v = .ok r) vs
        [.array [.object [("k", .boolean true)]], .null] ∧
      (Pipeline.mk "input" (.wildcard :: ops)).evaluate (.array vs) =
        .ok (.array [.array [.object [("k", .boolean true)]]]) := by
  intro ops vs
  have hne : ops ≠ [] := nofun
  have hops : ∀ op ∈ ops, op.IsStep :=
    List.forall_mem_cons.2 ⟨⟨rfl, rfl⟩, List.forall_mem_singleton.2 ⟨rfl, rfl⟩⟩
  have hinner : ∀ op ∈ ops.dropLast, op.projects = false := List.forall_mem_singleton.2 rfl
  have hrs : List.Forall₂ (fun v r => (Pipeline.mk "input" ops).evaluate v = .ok r) vs
      [.array [.object [("k", .boolean true)]], .null] := .cons rfl (.cons rfl .nil)
  exact ⟨hne, hops, hinner, hrs, (Pipeline.evaluate_wildcard hne hops "input" vs).2 hinner _ hrs⟩

/-- A wildcard among the steps: the field after it is looked for in the arrays that it gives. -/
theorem Pipeline.evaluate_wildcard_inner :
    let ops : List Operation := [.field "Instances", .wildcard, .field "Id"]
    let v : Value := .object [("Instances", .array [.object [("Id", .string "i-1")]])]
    (Pipeline.mk "input" ops).evaluate v = .ok (.array [.string "i-1"]) ∧
      (Pipeline.mk "input" (.wildcard :: ops)).evaluate (.array [v]) = .ok (.array []) ∧
      (Pipeline.mk "input" (.wildcard :: ops)).evaluate (.array [v]) ≠ .ok (.array [.array [.string "i-1"]]) := by
  intro ops v
  have h : (Pipeline.mk "input" (.wildcard :: ops)).evaluate (.array [v]) = .ok (.array []) := rfl
  refine ⟨rfl, h, ?_⟩
  rw [h]
  exact nofun

end PathQuery
