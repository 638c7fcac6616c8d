/-
# Searching part by part

What a search with an expression gives depends on its parts only through what searches with
them give (`Expr.search_partByPart`): each part may be compiled on its own, from a fresh naming,
and run on the document by itself. An error is that of the first part that fails. A right side
that is not needed is not run: it adds nothing to the steps of the left side.

Key definitions: `Expr.search`, `Expr.HasPipeline`, `Expr.steps`, `PartByPart`.
Key theorems: `Query.search_eq`, `Expr.search_eq_meaning`, `Expr.steps_left`,
`Expr.search_partByPart`.
-/
import PathQuery.Proofs.Meaning
import PathQuery.Proofs.Noting

namespace PathQuery

/-! ### Searching with a tree -/

/-- The result of an expression on a document, the variables named from a fresh start. -/
def Expr.search (stem subject : String) (e : Expr) (document : Value) : Except Query.Error Value :=
  match (e.compile subject (.start stem)).1 with
  | .error error => .error (.pipeline (.compile error))
  | .ok p => (p.evaluate document).mapError .eval

/-- A search with a text is one with its tree. -/
theorem Query.search_eq (text : String) (document : Value) :
    Query.search text document =
      match Expr.parse {} text with
      | .error f => .error (.pipeline (.parse f))
      | .ok e => e.search "x" Query.input document := by
  rw [Query.search, Query.compile, Session.step, Session.usual, Session.start]
  dsimp only
  cases Expr.parse {} text with
  | error f => rfl
  | ok e =>
    dsimp only [Session.compile, Expr.search]
    rcases e.compile Query.input (.start "x") with ⟨_ | p, naming⟩ <;> rfl

/-- Whether the expression has a pipeline. -/
def Expr.HasPipeline (stem subject : String) (e : Expr) : Prop :=
  ∃ p, (e.compile subject (.start stem)).1 = .ok p

section

variable {stem subject : String} {e : Expr} {d : Value} {f : Meaning}

/-- An expression with a pipeline has a meaning. -/
theorem Expr.HasPipeline.meaning (h : e.HasPipeline stem subject) : ∃ f, e.meaning = .ok f := by
  obtain ⟨p, hp⟩ := h
  obtain ⟨f, hf, -⟩ := (hp ▸ e.compile_meaning subject (.start stem)).ok_left
  exact ⟨f, hf⟩

/-- An expression with a meaning has a pipeline. -/
theorem Expr.hasPipeline_of_meaning (h : e.meaning = .ok f) : e.HasPipeline stem subject := by
  obtain ⟨p, hp, -⟩ := (h ▸ e.compile_meaning subject (.start stem)).ok_right
  exact ⟨p, hp⟩

/-- Searching gives what the expression means, or the reason that it means nothing. -/
theorem Expr.search_eq_meaning : e.search stem subject d =
    match e.meaning with
    | .error error => .error (.pipeline (.compile error))
    | .ok f => (f.value d).mapError .eval := by
  have hc := e.compile_meaning subject (.start stem)
  rw [Expr.search]
  generalize (e.compile subject (.start stem)).1 = r at hc ⊢
  generalize e.meaning = m at hc ⊢
  cases hc with
  | error => rfl
  | ok h =>
    obtain ⟨rfl, hf⟩ := h
    dsimp only
    rw [Pipeline.evaluate_of_performs hf]

theorem Expr.search_of_meaning (h : e.meaning = .ok f) :
    e.search stem subject d = (f.value d).mapError .eval := by
  rw [Expr.search_eq_meaning, h]

end

/-! ### The steps of a search -/

/-- The steps that a search with an expression takes. -/
def Expr.steps (stem subject : String) (e : Expr) (document : Value) : List Step :=
  match (e.compile subject (.start stem)).1 with
  | .error _ => []
  | .ok p => (Query.tracedRun p document).2

section

variable {stem subject : String} {o : Operator} {l r : Expr}

/-- The left side of an operator is compiled first, so it has the operations that it has by
itself. -/
theorem Expr.compile_left {side : Pipeline → Operation}
    (hside : ∀ s, (Expr.binary o l r).operations s = do
      let ops ← l.operations s
      let other ← r.operations s
      return ops ++ [side (.mk s.subject other)]) {n : Naming} {q : Pipeline}
    (hq : ((Expr.binary o l r).compile subject n).1 = .ok q) :
    ∃ ops other, (l.compile subject n).1 = .ok (.mk subject ops) ∧
      q = .mk subject (ops ++ [side (.mk subject other)]) := by
  rw [Expr.compile, hside] at hq
  simp only [bind_assoc, pure_bind] at hq
  rcases hl : l.operations (.root subject) n with ⟨e | ops, n'⟩
  · rw [Stateful.bind_error hl] at hq
    cases hq
  · rw [Stateful.bind_ok hl] at hq
    rcases hr : r.operations (.root subject) n' with ⟨e | other, n''⟩
    · rw [Stateful.bind_error hr] at hq
      cases hq
    · rw [Stateful.bind_ok hr] at hq
      refine ⟨ops, other, ?_, (Except.ok.inj hq).symm⟩
      rw [Expr.compile, Stateful.bind_ok hl]
      rfl

/-- Where the left side decides, only the left side is run and the operator is one more step. -/
theorem Expr.steps_left (side : Pipeline → Operation)
    (hside : ∀ s, (Expr.binary o l r).operations s = do
      let ops ← l.operations s
      let other ← r.operations s
      return ops ++ [side (.mk s.subject other)])
    (h : (Expr.binary o l r).HasPipeline stem subject) {name : String} (hname : ∀ p, (side p).name = name)
    (hdistributes : ∀ p, (side p).distributes = false) {d v : Value}
    (hkeep : ∀ p b, (side p).apply Query.collect b v = pure (.single v)) (hv : l.search stem subject d = .ok v) :
    ∃ projecting, (Expr.binary o l r).steps stem subject d =
      l.steps stem subject d ++ [⟨name, v.typeName, projecting⟩] := by
  obtain ⟨q, hq⟩ := h
  obtain ⟨ops, other, hl, rfl⟩ := Expr.compile_left hside hq
  rw [Expr.search, hl] at hv
  obtain ⟨projecting, hrun⟩ := Query.tracedRun_append (mapError_eq_ok.1 hv) (hdistributes _) (hkeep _ _)
  refine ⟨projecting, ?_⟩
  rw [Expr.steps, Expr.steps, hq, hl]
  dsimp only
  rw [hrun, hname]

end

/-! ### Calls -/

theorem Expr.meaning_length {l : Expr} {f : Meaning} (hf : l.meaning = .ok f) :
    (Expr.selector (.call "length" [.value l])).meaning = .ok (f.andThen (.step .length)) := by
  rw [Expr.meaning, Selector.meaning, if_pos rfl, hf]
  rfl

theorem Expr.meaning_contains {l r : Expr} {f g : Meaning} (hf : l.meaning = .ok f) (hg : r.meaning = .ok g) :
    (Expr.selector (.call "contains" [.value l, .value r])).meaning = .ok (.contains f g) := by
  rw [Expr.meaning, Selector.meaning, if_neg (by decide), if_pos rfl, hf, hg]
  rfl

/-! ### Errors of a search -/

section

variable {ε ε' α β : Type} {wrap : ε → ε'}

theorem mapError_bind (x : Except ε α) (f : α → Except ε β) :
    (x >>= f).mapError wrap = x.mapError wrap >>= fun a => (f a).mapError wrap := by
  cases x <;> rfl

theorem keepItems_mapError (test : Value → Except ε Bool) (items : List Value) :
    (keepItems test items).mapError wrap = keepItems (fun v => (test v).mapError wrap) items := by
  induction items with
  | nil => rfl
  | cons v rest ih =>
    rw [keepItems, keepItems, mapError_bind, ← ih]
    refine bind_congr fun kept => ?_
    rw [mapError_bind]
    rfl

end

/-- What the entries of a list mean gives what searching with each gives. -/
theorem Expr.meanings_search {stem subject : String} {es : List Expr}
    (h : ∀ e ∈ es, e.HasPipeline stem subject) : ∃ fs : List Meaning, Expr.meanings es = .ok fs ∧
      ∀ d, (fs.mapM fun f : Meaning => f.value d).mapError .eval = es.mapM fun e => e.search stem subject d := by
  induction es with
  | nil => exact ⟨[], rfl, fun d => rfl⟩
  | cons e es ih =>
    obtain ⟨f, hf⟩ := (h e List.mem_cons_self).meaning
    obtain ⟨fs, hfs, hmap⟩ := ih fun e' he' => h e' (List.mem_cons_of_mem e he')
    refine ⟨f :: fs, by rw [Expr.meanings, hf, hfs]; rfl, fun d => ?_⟩
    rw [List.mapM_cons, List.mapM_cons, mapError_bind, search_of_meaning hf, ← hmap]
    refine bind_congr fun v => ?_
    rw [mapError_bind]
    rfl

/-! ### Part by part -/

/-- A search that gives for a combination of expressions the combination of what it gives for
the parts. The parts are searched with in order, and the first error is the result. -/
structure PartByPart (search : Expr → Value → Except Query.Error Value) (steps : Expr → Value → List Step)
    (l r p : Expr) (es : List Expr) (d : Value) : Prop where
  compare : ∀ c, search (.binary (.compare c) l r) d = do
    let v ← search l d
    let w ← search r d
    return Value.compareBy c v w
  or : search (.binary .or l r) d = do
    let v ← search l d
    if v.isTruthy then return v else search r d
  /-- The right side takes no step if the left gives something true. -/
  or_steps : ∀ v, search l d = .ok v → v.isTruthy = true → ∃ projecting,
    steps (.binary .or l r) d = steps l d ++ [⟨"or", v.typeName, projecting⟩]
  and : search (.binary .and l r) d = do
    let v ← search l d
    if v.isTruthy then search r d else return v
  /-- The right side takes a step only if the left gives something true. -/
  and_steps : ∀ v, search l d = .ok v → v.isTruthy = false → ∃ projecting,
    steps (.binary .and l r) d = steps l d ++ [⟨"and", v.typeName, projecting⟩]
  not : search (.not l) d = do
    let v ← search l d
    return .boolean (!v.isTruthy)
  length : search (.selector (.call "length" [.value l])) d = do
    let v ← search l d
    v.length.mapError fun fault => .eval (.type fault)
  contains : search (.selector (.call "contains" [.value l, .value r])) d = do
    let v ← search l d
    let w ← search r d
    (v.contains w).mapError fun fault => .eval (.type fault)
  /-- Of null there is no list, and otherwise each entry is searched with on the same value. -/
  list : search (.selector (.list es)) d =
    if d.isNull then return .null
    else do
      let vs ← es.mapM fun e => search e d
      return .array vs
  /-- The items are kept in order, each by what is found in it. -/
  filter : search (.index (.filter p)) d =
    match d with
    | .array items => do
      let kept ← items.filterM fun item => do return (← search p item).isTruthy
      return .array kept
    | _ => return .null

/-- **Searching goes part by part**, for all parts that have pipelines. -/
theorem Expr.search_partByPart (stem subject : String) {l r p : Expr} {es : List Expr}
    (hl : l.HasPipeline stem subject) (hr : r.HasPipeline stem subject) (hp : p.HasPipeline stem subject)
    (hes : ∀ e ∈ es, e.HasPipeline stem subject) (d : Value) :
    PartByPart (Expr.search stem subject) (Expr.steps stem subject) l r p es d := by
  obtain ⟨f, hf⟩ := hl.meaning
  obtain ⟨g, hg⟩ := hr.meaning
  obtain ⟨k, hk⟩ := hp.meaning
  obtain ⟨fs, hfs, hmap⟩ := Expr.meanings_search hes
  have hor : (Expr.binary .or l r).meaning = .ok (.or f g) := by rw [Expr.meaning, hf, hg]; rfl
  have hand : (Expr.binary .and l r).meaning = .ok (.and f g) := by rw [Expr.meaning, hf, hg]; rfl
  constructor
  case compare =>
    intro c
    have h : (Expr.binary (.compare c) l r).meaning = .ok (.compare c f g) := by
      rw [Expr.meaning, hf, hg]; rfl
    simp only [search_of_meaning h, search_of_meaning hf, search_of_meaning hg, Meaning.value,
      Meaning.result_compare, mapError_bind]
    rfl
  case or =>
    simp only [search_of_meaning hor, search_of_meaning hf, search_of_meaning hg, Meaning.value,
      Meaning.result_or, mapError_bind]
    refine bind_congr fun v => ?_
    cases v.isTruthy <;> rfl
  case and =>
    simp only [search_of_meaning hand, search_of_meaning hf, search_of_meaning hg, Meaning.value,
      Meaning.result_and, mapError_bind]
    refine bind_congr fun v => ?_
    cases v.isTruthy <;> rfl
  case or_steps =>
    intro v hv htrue
    refine Expr.steps_left .or (fun s => by rw [Expr.operations]) (hasPipeline_of_meaning hor) (fun _ => rfl)
      (fun _ => rfl) (fun p b => ?_) hv
    rw [Operation.apply, if_pos htrue]
  case and_steps =>
    intro v hv hfalse
    refine Expr.steps_left .and (fun s => by rw [Expr.operations]) (hasPipeline_of_meaning hand) (fun _ => rfl)
      (fun _ => rfl) (fun p b => ?_) hv
    rw [Operation.apply, if_neg (by rw [hfalse]; nofun)]
  case not =>
    have h : (Expr.not l).meaning = .ok (.not f) := by rw [Expr.meaning, hf]; rfl
    simp only [search_of_meaning h, search_of_meaning hf, Meaning.value, Meaning.result_not, mapError_bind]
    rfl
  case length =>
    simp only [search_of_meaning (Expr.meaning_length hf), search_of_meaning hf, Meaning.value,
      Meaning.result_length, mapError_bind]
    refine bind_congr fun v => ?_
    cases v.length <;> rfl
  case contains =>
    simp only [search_of_meaning (Expr.meaning_contains hf hg), search_of_meaning hf, search_of_meaning hg,
      Meaning.value, Meaning.result_contains, mapError_bind]
    refine bind_congr fun v => bind_congr fun w => ?_
    cases v.contains w <;> rfl
  case list =>
    have h : (Expr.selector (.list es)).meaning = .ok (.list fs) := by
      rw [Expr.meaning, Selector.meaning, hfs]; rfl
    rw [search_of_meaning h, Meaning.value, Meaning.result_list, ← hmap]
    cases d.isNull with
    | true => rfl
    | false => exact mapError_bind _ _
  case filter =>
    have h : (Expr.index (.filter p)).meaning = .ok (.filter k) := by
      rw [Expr.meaning, Bracket.meaning, hk]; rfl
    rw [search_of_meaning h]
    cases d with
    | array items =>
      rw [Meaning.value, Meaning.result_filter_array, mapError_bind, keepItems_mapError, keepItems_eq_filterM]
      simp only [search_of_meaning hk, mapError_bind]
      rfl
    | _ => rfl

/-- Both entries of the list are filters: each by itself names its variable `x0`, and in the list
they have others. -/
theorem Expr.search_partByPart_filters :
    let k : Expr := .selector (.identifier "k")
    let l : Expr := .index (.filter k)
    let r : Expr := .index (.filter (.not k))
    let d : Value := .array [.object [("k", .string "v")], .object [("k", .null)]]
    l.HasPipeline "x" Query.input ∧ r.HasPipeline "x" Query.input ∧ k.HasPipeline "x" Query.input ∧
      (∀ e ∈ [l, r], e.HasPipeline "x" Query.input) ∧
      PartByPart (Expr.search "x" Query.input) (Expr.steps "x" Query.input) l r k [l, r] d := by
  intro k l r d
  have hl : l.HasPipeline "x" Query.input := ⟨_, rfl⟩
  have hr : r.HasPipeline "x" Query.input := ⟨_, rfl⟩
  have hk : k.HasPipeline "x" Query.input := ⟨_, rfl⟩
  have hes : ∀ e ∈ [l, r], e.HasPipeline "x" Query.input :=
    List.forall_mem_cons.2 ⟨hl, List.forall_mem_singleton.2 hr⟩
  exact ⟨hl, hr, hk, hes, Expr.search_partByPart "x" Query.input hl hr hk hes d⟩

end PathQuery
