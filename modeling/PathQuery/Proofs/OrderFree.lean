/-
# Runs that do not see the order of names

Only a wildcard reads the members of an object in their order. Every other operation takes values
that differ in the order of names to values that do, or fails with the same error on both: it
looks names up, counts, and compares with an equality that does not depend on that order. A test
keeps the same items, and a branch has the same value bound to its variable, up to the order
again. So a pipeline without wildcards, at any depth, gives the same error on two documents that
differ in the order of names, or results that differ in no more (`Pipeline.evaluate_reordered`).

Key definitions: `Pipeline.wildcardFree`, `Value.Twin`, `Current.Twin`, `Bindings.Twin`.
Key theorems: `Operation.apply_twin`, `Pipeline.run_twin`, `Pipeline.evaluate_reordered`.
-/
import PathQuery.Proofs.KeyOrder
import PathQuery.Proofs.Running
import PathQuery.Proofs.Stateful

namespace PathQuery

mutual

/-- Whether no operation of a pipeline, those inside included, is a wildcard. The objects in a
constant have distinct names, as all objects do. -/
def Pipeline.wildcardFree : Pipeline → Bool
  | .mk _ ops => Operation.allWildcardFree ops

/-- The same for operations in a row. -/
def Operation.allWildcardFree : List Operation → Bool
  | [] => true
  | op :: ops => op.wildcardFree && Operation.allWildcardFree ops

/-- The same for an operation. -/
def Operation.wildcardFree : Operation → Bool
  | .wildcard => false
  | .constant v => decide v.Distinct
  | .filter p | .compare _ p | .or p | .and p | .constantOf p | .contains p => p.wildcardFree
  | .multiSelect ps => Pipeline.allWildcardFree ps
  | .field _ | .index _ | .flatten | .not | .length => true

/-- The same for branches. -/
def Pipeline.allWildcardFree : List Pipeline → Bool
  | [] => true
  | p :: ps => p.wildcardFree && Pipeline.allWildcardFree ps

end

/-! ### Values that differ in the order of names -/

namespace Value

open Document

/-- Values that differ in the order of names only, in which no object has a name twice. -/
structure Twin (v w : Value) : Prop where
  distinct : v.Distinct
  reordered : v.Reordered w

namespace Twin

variable {v w v' w' : Value}

theorem refl (h : v.Distinct) : v.Twin v := ⟨h, .refl v⟩

theorem boolean (b : Bool) : Twin (.boolean b) (.boolean b) := refl trivial

theorem array_iff {items items' : List Value} :
    Twin (.array items) (.array items') ↔ List.Forall₂ Twin items items' := by
  constructor
  · rintro ⟨hdistinct, hreordered⟩
    rw [distinct_array] at hdistinct
    cases hreordered with
    | array hitems => exact forall₂_of_mem (fun v hv w _ hvw => ⟨hdistinct v hv, hvw⟩) hitems
  · intro h
    refine ⟨distinct_array.2 fun v hv => ?_, .array (h.imp fun _ _ => reordered)⟩
    obtain ⟨w, -, hvw⟩ := exists_of_forall₂ h hv
    exact hvw.distinct

theorem isTruthy (h : v.Twin w) : v.isTruthy = w.isTruthy := by
  cases h.reordered with
  | array hitems =>
    cases hitems <;> rfl
  | @object fields _ fields' hrel hperm =>
    have hlength : fields.length = fields'.length := Fields.Match.length_eq ⟨_, hrel, hperm⟩
    cases fields <;> cases fields' <;> first | rfl | cases hlength
  | _ => rfl

theorem isNull (h : v.Twin w) : v.isNull = w.isNull := by
  cases h.reordered <;> rfl

/-! ### Operations on values -/

theorem member (h : v.Twin w) (name : String) : (v.member name).Twin (w.member name) := by
  obtain ⟨hdistinct, hreordered⟩ := h
  cases hreordered with
  | @object fields _ fields' hrel hperm =>
    rw [distinct_object] at hdistinct
    have hmatch : Fields.Match Reordered fields fields' := ⟨_, hrel, hperm⟩
    have hlookup := hmatch.lookup hdistinct.1 name
    have hvalue : ∀ a, Fields.lookup name fields = some a → a.Distinct := fun a ha =>
      hdistinct.2 (name, a) (Fields.mem_of_lookup ha)
    simp only [Value.member]
    generalize Fields.lookup name fields = found, Fields.lookup name fields' = found' at hlookup hvalue ⊢
    cases hlookup with
    | none => exact refl trivial
    | some hab => exact ⟨hvalue _ rfl, hab⟩
  | _ => exact refl trivial

theorem getElem? {items items' : List Value} (h : List.Forall₂ Twin items items') (i : Nat) :
    (items[i]?.getD .null).Twin (items'[i]?.getD .null) := by
  induction h generalizing i with
  | nil => exact refl trivial
  | cons hv _ ih =>
    cases i with
    | zero => exact hv
    | succ i => exact ih i

theorem item (h : v.Twin w) (n : Int64) : (v.item n).Twin (w.item n) := by
  cases v with
  | array items =>
    cases w with
    | array items' =>
      rw [array_iff] at h
      simp only [Value.item, ← h.length_eq]
      cases place? items.length n with
      | none => exact refl trivial
      | some i => exact getElem? h i
    | _ => cases h.reordered
  | _ =>
    cases h.reordered
    exact refl trivial

theorem flattenItems {items items' : List Value} (h : List.Forall₂ Twin items items') :
    List.Forall₂ Twin (flattenItems items) (flattenItems items') := by
  induction h with
  | nil => exact .nil
  | @cons v w _ _ hvw _ ih =>
    cases v with
    | array inner =>
      cases w with
      | array inner' =>
        rw [array_iff] at hvw
        exact List.rel_append hvw ih
      | _ => cases hvw.reordered
    | _ =>
      cases hvw.reordered
      exact .cons hvw ih

theorem compareBy (h : v.Twin w) (h' : v'.Twin w') (c : Comparator) :
    (compareBy c v v').Twin (compareBy c w w') := by
  rw [compareBy_congr c h.distinct h'.distinct h.reordered h'.reordered]
  have hresult : (Value.compareBy c w w').Distinct := by
    unfold Value.compareBy
    split
    · trivial
    · trivial
    · split <;> trivial
  exact refl hresult

/-- The length is the same, and so is the fault of what has none. -/
theorem length (h : v.Twin w) : v.length = w.length := by
  have htype : v.typeName = w.typeName := typeName_congr h.reordered
  cases h.reordered with
  | array hitems => rw [Value.length, Value.length, hitems.length_eq]
  | object hrel hperm => rw [Value.length, Value.length, Fields.Match.length_eq ⟨_, hrel, hperm⟩]
  | _ => rfl

theorem contains (h : v.Twin w) (h' : v'.Twin w') : v.contains v' = w.contains w' :=
  contains_congr h.distinct h'.distinct h.reordered h'.reordered

end Twin

/-- What functions give is a number or a boolean. -/
theorem distinct_length {v r : Value} (h : v.length = .ok r) : r.Distinct := by
  cases v with
  | string | array | object => cases h; trivial
  | _ => cases h

theorem distinct_contains {v w r : Value} (h : v.contains w = .ok r) : r.Distinct := by
  unfold Value.contains at h
  split at h <;> cases h <;> trivial

end Value

open Value (Twin)

/-! ### Current values -/

/-- Current values that differ in the order of names only. -/
inductive Current.Twin : Current → Current → Prop
  | single {v w : Value} : v.Twin w → Current.Twin (.single v) (.single w)
  | projection {vs ws : List Value} : List.Forall₂ Value.Twin vs ws → Current.Twin (.projection vs) (.projection ws)

theorem Current.Twin.value {c c' : Current} (h : c.Twin c') : c.value.Twin c'.value := by
  cases h with
  | single h => exact h
  | projection h => exact Value.Twin.array_iff.2 h

/-- The result of a function that is given twins. -/
theorem orTypeError_twin {r : Except TypeFault Value} (h : ∀ v, r = .ok v → v.Distinct) :
    Alike Current.Twin (orTypeError r : Except EvalError Current) (orTypeError r) := by
  cases r with
  | error fault => exact .error
  | ok v => exact .ok (.single (.refl (h v rfl)))

section Items

variable {items items' : List Value}

theorem eachItem_twin {action action' : Value → Except EvalError Current}
    (h : ∀ v w, v.Twin w → Alike Current.Twin (action v) (action' w)) (hitems : List.Forall₂ Twin items items') :
    Alike (List.Forall₂ Twin) (eachItem action items) (eachItem action' items') := by
  induction hitems with
  | nil => exact .ok .nil
  | cons hv _ ih =>
    refine (h _ _ hv).bind fun c c' hc => ih.bind fun rs rs' hrs => .ok ?_
    rw [hc.value.isNull]
    split
    · exact hrs
    · exact .cons hc.value hrs

theorem keepItems_twin {test test' : Value → Except EvalError Bool}
    (h : ∀ v w, v.Twin w → Alike Eq (test v) (test' w)) (hitems : List.Forall₂ Twin items items') :
    Alike (List.Forall₂ Twin) (keepItems test items) (keepItems test' items') := by
  induction hitems with
  | nil => exact .ok .nil
  | cons hv _ ih =>
    refine (h _ _ hv).bind fun kept kept' hkept => ih.bind fun rs rs' hrs => .ok ?_
    rw [hkept]
    split
    · exact .cons hv hrs
    · exact hrs

/-- An operation goes through the items of projections alike. -/
theorem Operation.applyTo_twin {op : Operation} {one one' : Value → Except EvalError Current}
    (h : ∀ v w, v.Twin w → Alike Current.Twin (one v) (one' w)) {c c' : Current} (hc : c.Twin c') :
    Alike Current.Twin (op.applyTo quiet one c) (op.applyTo quiet one' c') := by
  rw [Operation.applyTo_quiet, Operation.applyTo_quiet]
  split
  · cases hc with
    | single hv => exact h _ _ hv
    | projection hitems => exact (eachItem_twin h hitems).bind fun _ _ hresults => .ok (.projection hresults)
  · exact h _ _ hc.value

end Items

/-! ### Runs -/

/-- Bindings that give each variable values that differ in the order of names only. -/
def Bindings.Twin (b b' : Bindings) : Prop :=
  ∀ x, Option.Rel Value.Twin (Fields.lookup x b) (Fields.lookup x b')

theorem Bindings.Twin.bind {b b' : Bindings} (h : b.Twin b') (x : String) {v w : Value} (hvw : v.Twin w) :
    Bindings.Twin ((x, v) :: b) ((x, w) :: b') := by
  intro y
  rw [Fields.lookup, Fields.lookup]
  by_cases hxy : x = y
  · rw [if_pos hxy, if_pos hxy]
    exact .some hvw
  · rw [if_neg hxy, if_neg hxy]
    exact h y

mutual

/-- **A run does not see the order of names**, unless it takes a wildcard. -/
theorem Pipeline.run_twin {b b' : Bindings} (hb : b.Twin b') : ∀ p : Pipeline, p.wildcardFree = true →
    Alike Twin (p.run quiet b) (p.run quiet b')
  | .mk x ops, hp => by
    rw [Pipeline.wildcardFree] at hp
    have hx := hb x
    rw [Pipeline.run, Pipeline.run]
    generalize Fields.lookup x b = found, Fields.lookup x b' = found' at hx ⊢
    cases hx with
    | none => exact .error
    | some hvw => exact (Operation.applyAll_twin hb ops hp (.single hvw)).bind fun c c' hc => .ok hc.value

/-- The same for operations in a row. -/
theorem Operation.applyAll_twin {b b' : Bindings} (hb : b.Twin b') : ∀ ops : List Operation,
    Operation.allWildcardFree ops = true → ∀ {c c' : Current}, c.Twin c' →
      Alike Current.Twin (Operation.applyAll quiet b ops c) (Operation.applyAll quiet b' ops c')
  | [], _, _, _, hc => .ok hc
  | op :: ops, hops, c, c', hc => by
    rw [Operation.allWildcardFree, Bool.and_eq_true] at hops
    rw [Operation.applyAll, Operation.applyAll]
    refine (Operation.applyTo_twin (fun v w hvw => Operation.apply_twin hb op hops.1 hvw) hc).bind fun d d' hd => ?_
    exact Operation.applyAll_twin hb ops hops.2 hd

/-- The same for an operation. -/
theorem Operation.apply_twin {b b' : Bindings} (hb : b.Twin b') : ∀ op : Operation, op.wildcardFree = true →
    ∀ {v w : Value}, v.Twin w → Alike Current.Twin (op.apply quiet b v) (op.apply quiet b' w)
  | .field name, _, v, w, h => .ok (.single (h.member name))
  | .index n, _, v, w, h => .ok (.single (h.item n))
  | .not, _, v, w, h => by
    rw [Operation.apply, Operation.apply, h.isTruthy]
    exact .ok (.single (.boolean _))
  | .constant u, hop, v, w, h => .ok (.single (.refl (of_decide_eq_true hop)))
  | .constantOf p, hop, v, w, h => by
    rw [Operation.wildcardFree] at hop
    rw [Operation.apply, Operation.apply]
    exact (Pipeline.run_twin hb p hop).map fun _ _ => .single
  | .flatten, _, v, w, h => by
    cases v with
    | array items =>
      cases w with
      | array items' => exact .ok (.projection (Value.Twin.flattenItems (Value.Twin.array_iff.1 h)))
      | _ => cases h.reordered
    | _ =>
      cases h.reordered
      exact .ok (.single (.refl trivial))
  | .filter p, hop, v, w, h => by
    rw [Operation.wildcardFree] at hop
    cases v with
    | array items =>
      cases w with
      | array items' =>
        rw [Operation.apply, Operation.apply]
        refine (keepItems_twin (fun u u' hu => ?_) (Value.Twin.array_iff.1 h)).bind fun kept kept' hkept =>
          .ok (.projection hkept)
        exact (Pipeline.run_twin (hb.bind p.subject hu) p hop).bind fun r r' hr => .ok hr.isTruthy
      | _ => cases h.reordered
    | _ =>
      cases h.reordered
      exact .ok (.single (.refl trivial))
  | .compare c p, hop, v, w, h => by
    rw [Operation.wildcardFree] at hop
    rw [Operation.apply, Operation.apply]
    exact (Pipeline.run_twin hb p hop).bind fun r r' hr => .ok (.single (h.compareBy hr c))
  | .or p, hop, v, w, h => by
    rw [Operation.wildcardFree] at hop
    rw [Operation.apply, Operation.apply, h.isTruthy]
    split
    · exact .ok (.single h)
    · exact (Pipeline.run_twin hb p hop).map fun _ _ => .single
  | .and p, hop, v, w, h => by
    rw [Operation.wildcardFree] at hop
    rw [Operation.apply, Operation.apply, h.isTruthy]
    split
    · exact (Pipeline.run_twin hb p hop).map fun _ _ => .single
    · exact .ok (.single h)
  | .length, _, v, w, h => by
    rw [Operation.apply, Operation.apply, h.length]
    exact orTypeError_twin fun r => Value.distinct_length
  | .contains p, hop, v, w, h => by
    rw [Operation.wildcardFree] at hop
    rw [Operation.apply, Operation.apply]
    refine (Pipeline.run_twin hb p hop).bind fun needle needle' hneedle => ?_
    rw [h.contains hneedle]
    exact orTypeError_twin fun r => Value.distinct_contains
  | .multiSelect ps, hop, v, w, h => by
    rw [Operation.wildcardFree] at hop
    rw [Operation.apply, Operation.apply, h.isNull]
    split
    · exact .ok (.single (.refl trivial))
    · exact (Pipeline.runBranches_twin hb h ps hop).bind fun rs rs' hrs => .ok (.single (Value.Twin.array_iff.2 hrs))

/-- The same for branches. -/
theorem Pipeline.runBranches_twin {b b' : Bindings} (hb : b.Twin b') {v w : Value} (h : v.Twin w) :
    ∀ ps : List Pipeline, Pipeline.allWildcardFree ps = true →
      Alike (List.Forall₂ Twin) (Pipeline.runBranches quiet b v ps) (Pipeline.runBranches quiet b' w ps)
  | [], _ => .ok .nil
  | p :: ps, hps => by
    rw [Pipeline.allWildcardFree, Bool.and_eq_true] at hps
    rw [Pipeline.runBranches, Pipeline.runBranches]
    refine (Pipeline.run_twin (hb.bind p.subject h) p hps.1).bind fun r r' hr => ?_
    exact (Pipeline.runBranches_twin hb h ps hps.2).bind fun rs rs' hrs => .ok (.cons hr hrs)

end

/-- **Without wildcards the order of names makes no difference.** On two documents that differ in the
order of names only, a pipeline that has no wildcard at any depth fails with the same error, or has
results that differ in the order of names only. -/
theorem Pipeline.evaluate_reordered {p : Pipeline} (hp : p.wildcardFree = true) {d e : Value} (hd : d.Distinct)
    (h : d.Reordered e) : Alike (fun v w : Value => v.Reordered w) (p.evaluate d) (p.evaluate e) := by
  have hnone : Bindings.Twin [] [] := fun _ => .none
  have hb : Bindings.Twin [(p.subject, d)] [(p.subject, e)] := hnone.bind p.subject ⟨hd, h⟩
  exact (Pipeline.run_twin hb p hp).imp fun _ _ => Value.Twin.reordered

/-- A filter that compares a member with another one of the document, on a document and on the same
with the names of its objects in another order. -/
theorem Pipeline.evaluate_reordered_filter :
    let p : Pipeline := .mk "d" [.field "a", .filter (.mk "x" [.field "k", .compare .eq (.mk "d" [.field "b"])])]
    let d : Value := .object [("a", .array [.object [("k", .null), ("l", .boolean true)],
      .object [("k", .object [("m", .null), ("n", .null)])]]), ("b", .object [("n", .null), ("m", .null)])]
    let e : Value := .object [("b", .object [("n", .null), ("m", .null)]),
      ("a", .array [.object [("l", .boolean true), ("k", .null)],
        .object [("k", .object [("n", .null), ("m", .null)])]])]
    p.wildcardFree = true ∧ d.Distinct ∧ d.Reordered e ∧
      Alike (fun v w : Value => v.Reordered w) (p.evaluate d) (p.evaluate e) ∧
      p.evaluate d = .ok (.array [.object [("k", .object [("m", .null), ("n", .null)])]]) := by
  intro p d e
  have hp : p.wildcardFree = true := by decide
  have hd : d.Distinct := by decide
  have he : e.Distinct := by decide
  have h : d.Reordered e := (Value.equal_iff_reordered ⟨hd, by decide⟩ ⟨he, by decide⟩).1 rfl
  exact ⟨hp, hd, h, Pipeline.evaluate_reordered hp hd h, rfl⟩

end PathQuery
