/-
# Pipelines are told apart by their texts

Two pipelines with one text are one pipeline, if their variables are names, and none of them a word
that a value is written with (`Pipeline.text_injective`). Every part of the text shows where it ends. A
name ends before the first character that no name holds. What stands between quotes, and an integer,
is what a reader takes off the front; so is a value, whose text is read back. What stands behind a
pipeline, a comma, a parenthesis or nothing, begins no further operation. So each part is cancelled
with what is written of it, from the left, and the rest goes on with equal texts.

A value and a pipeline that stand alone in the parentheses begin differently: a value with no letter
at all or with one of the three words.

Key definitions: `IsVariable`, `Pipeline.legible`, `Operation.inside`.
Key theorems: `Value.text_append_inj`, `Pipeline.text_append_inj`, `Pipeline.text_injective`.
-/
import PathQuery.Pipeline.Text
import PathQuery.Proofs.ReadBack
import PathQuery.Proofs.Sequence

namespace PathQuery

open Json

/-- A name, and none of the words for a value. -/
def IsVariable (x : String) : Prop := IsName x.toList ∧ x ∉ ["null", "true", "false"]

instance : DecidablePred IsVariable := fun _ => inferInstanceAs (Decidable (_ ∧ _))

mutual

/-- Whether the variables of a pipeline, those inside included, are such names, and its constants hold
no doubles. The objects in a constant have distinct names, as all objects do. -/
def Pipeline.legible : Pipeline → Bool
  | .mk x ops => decide (IsVariable x) && Operation.allLegible ops

/-- The same for operations in a row. -/
def Operation.allLegible : List Operation → Bool
  | [] => true
  | op :: ops => op.legible && Operation.allLegible ops

/-- The same for an operation. -/
def Operation.legible : Operation → Bool
  | .constant v => decide (v.FloatFree ∧ v.Distinct)
  | .filter p | .compare _ p | .or p | .and p | .constantOf p | .contains p => p.legible
  | .multiSelect ps => Pipeline.allLegible ps
  | .field _ | .index _ | .flatten | .wildcard | .not | .length => true

/-- The same for branches. -/
def Pipeline.allLegible : List Pipeline → Bool
  | [] => true
  | p :: ps => p.legible && Pipeline.allLegible ps

end

/-! ### Characters that come before others -/

section Cancel

variable {p : Char → Bool} {t u r s : List Char}

/-- Texts of characters of one kind are cancelled before characters of another kind. -/
theorem append_inj_of_forall : ∀ {t u : List Char}, (∀ c ∈ t, p c = true) → (∀ c ∈ u, p c = true) →
    (∀ c, r.head? = some c → p c = false) → (∀ c, s.head? = some c → p c = false) → t ++ r = u ++ s →
      t = u ∧ r = s
  | [], [], _, _, _, _, h => ⟨rfl, h⟩
  | [], d :: u, _, hu, hr, _, h => by
    have hd := hr d (by rw [← List.nil_append r, h]; rfl)
    rw [hu d List.mem_cons_self] at hd
    exact nomatch hd
  | c :: t, [], ht, _, _, hs, h => by
    have hc := hs c (by rw [← List.nil_append s, ← h]; rfl)
    rw [ht c List.mem_cons_self] at hc
    exact nomatch hc
  | c :: t, d :: u, ht, hu, hr, hs, h => by
    obtain ⟨rfl, hrest⟩ := List.cons.inj h
    obtain ⟨rfl, hrs⟩ := append_inj_of_forall (fun x hx => ht x (List.mem_cons_of_mem _ hx))
      (fun x hx => hu x (List.mem_cons_of_mem _ hx)) hr hs hrest
    exact ⟨rfl, hrs⟩

/-- A name ends where no character of a name comes. -/
theorem IsName.append_inj {x y : String} (hx : IsName x.toList) (hy : IsName y.toList)
    (hr : ∀ c, r.head? = some c → CharClass.isNameChar c = false)
    (hs : ∀ c, s.head? = some c → CharClass.isNameChar c = false) (h : x.toList ++ r = y.toList ++ s) :
    x = y ∧ r = s := by
  obtain ⟨hxy, h⟩ := append_inj_of_forall (fun _ => hx.mem) (fun _ => hy.mem) hr hs h
  exact ⟨String.toList_inj.mp hxy, h⟩

/-- A text between quotes is cancelled. -/
theorem quote_append_inj {x y : String} (h : (Quoted.quote x).toList ++ r = (Quoted.quote y).toList ++ s) :
    x = y ∧ r = s := by
  rw [Value.toList_quote, Value.toList_quote, List.cons_append, List.cons_append, List.cons.injEq] at h
  have hx : x.length < x.length + y.length + 1 := by omega
  have hy : y.length < x.length + y.length + 1 := by omega
  exact (Text.read_escape hx r).cancel (Text.read_escape hy s) h.2

/-- An integer is cancelled before what may stand behind a value. -/
theorem toString_append_inj {n m : Int64} (hr : Ends r) (hs : Ends s)
    (h : (toString n.toInt).toList ++ r = (toString m.toInt).toList ++ s) : n = m ∧ r = s := by
  obtain ⟨hnm, h⟩ := (Numeral.read_toString n.le_toInt n.toInt_lt hr).cancel
    (Numeral.read_toString m.le_toInt m.toInt_lt hs) h
  exact ⟨Int64.toInt_inj.mp (Json.Number.integer.inj hnm), h⟩

end Cancel

namespace Value

variable {v w : Value} {r s : List Char}

/-- **A value is told from its text**, whatever stands behind. -/
theorem text_append_inj (hv : v.FloatFree ∧ v.Distinct) (hw : w.FloatFree ∧ w.Distinct) (hr : Ends r)
    (hs : Ends s) (h : v.chars ++ r = w.chars ++ s) : v = w ∧ r = s := by
  -- one reader takes both, with room for either and as deep as the deeper one
  have hvroom : v.chars.length < v.chars.length + w.chars.length + 1 := by omega
  have hwroom : w.chars.length < v.chars.length + w.chars.length + 1 := by omega
  have hvread := value_takes hv.1 hv.2 (Nat.le_max_left v.nesting w.nesting) hvroom r hr
  have hwread := value_takes hw.1 hw.2 (Nat.le_max_right v.nesting w.nesting) hwroom s hs
  obtain ⟨hvw, h⟩ := hvread.cancel hwread h
  refine ⟨?_, h⟩
  rw [← ofJson_toJson hv.1.finite, hvw, ofJson_toJson hw.1.finite]

/-- The text of a value is one of three words, or does not begin as a name. -/
theorem text_word (h : v.FloatFree) : text v ∈ ["null", "true", "false"] ∨
    ∃ x u, v.chars = x :: u ∧ CharClass.isNameStart x = false := by
  cases v with
  | null => exact .inl (by decide)
  | boolean b => exact .inl (by cases b <;> decide)
  | string s => exact .inr ⟨_, _, chars_string s, by decide⟩
  | array items => exact .inr ⟨_, _, chars_array items, by decide⟩
  | object fields => exact .inr ⟨_, _, chars_object fields, by decide⟩
  | number n =>
    cases n with
    | float x => exact absurd h id
    | integer n =>
      obtain ⟨x, u, hu, hx⟩ := toString_begins n.toInt
      exact .inr ⟨x, u, hu, numberHeads_forall (p := (CharClass.isNameStart · = false)) (by decide) hx⟩

end Value

/-! ### Operations -/

/-- What stands in the parentheses of an operation. -/
def Operation.inside : Operation → String
  | .field name => Quoted.quote name
  | .index n => toString n.toInt
  | .filter p => p.lambdaText
  | .compare c p => "\"" ++ c.symbol ++ "\", " ++ p.text
  | .or p | .and p | .constantOf p | .contains p => p.text
  | .constant v => Value.text v
  | .multiSelect ps => Pipeline.branchesText ps
  | .flatten | .wildcard | .not | .length => ""

namespace Operation

variable {op oq : Operation} {r s : List Char}

theorem text_eq (op : Operation) : op.text = op.name ++ "(" ++ op.inside ++ ")" := by
  cases op with
  | compare c p =>
    show "compare(\"" ++ c.symbol ++ "\", " ++ p.text ++ ")" =
      "compare(" ++ ("\"" ++ c.symbol ++ "\", " ++ p.text) ++ ")"
    simp only [← String.append_assoc]
    rfl
  | _ => rfl

theorem toList_chainText_cons (op : Operation) (ops : List Operation) :
    (chainText (op :: ops)).toList =
      '.' :: (op.name.toList ++ '(' :: (op.inside.toList ++ ')' :: (chainText ops).toList)) := by
  show ("." ++ op.text ++ chainText ops).toList = _
  rw [text_eq]
  simp [String.toList_append]

/-- Operations of one name: both are made alike, or one holds a value and one a pipeline. -/
inductive Namesake : Operation → Operation → Prop
  | field {x y : String} : Namesake (.field x) (.field y)
  | index {n m : Int64} : Namesake (.index n) (.index m)
  | flatten : Namesake .flatten .flatten
  | wildcard : Namesake .wildcard .wildcard
  | filter {p q : Pipeline} : Namesake (.filter p) (.filter q)
  | compare {c d : Comparator} {p q : Pipeline} : Namesake (.compare c p) (.compare d q)
  | or {p q : Pipeline} : Namesake (.or p) (.or q)
  | and {p q : Pipeline} : Namesake (.and p) (.and q)
  | not : Namesake .not .not
  | constant {v w : Value} : Namesake (.constant v) (.constant w)
  | constantOf {p q : Pipeline} : Namesake (.constantOf p) (.constantOf q)
  | valueAndPipeline {v : Value} {q : Pipeline} : Namesake (.constant v) (.constantOf q)
  | pipelineAndValue {p : Pipeline} {w : Value} : Namesake (.constantOf p) (.constant w)
  | length : Namesake .length .length
  | contains {p q : Pipeline} : Namesake (.contains p) (.contains q)
  | multiSelect {ps qs : List Pipeline} : Namesake (.multiSelect ps) (.multiSelect qs)

theorem namesake_of_name_eq (h : op.name = oq.name) : Namesake op oq := by
  cases op <;> cases oq <;> first
    | constructor
    | rw [name, name] at h
      exact absurd h (by decide)

/-- The name of an operation is cancelled before the parenthesis. -/
theorem name_append_inj (h : op.name.toList ++ '(' :: r = oq.name.toList ++ '(' :: s) :
    op.name = oq.name ∧ r = s := by
  have hletters (op : Operation) : ∀ c ∈ op.name.toList, (c != '(') = true := by
    refine List.all_eq_true.mp ?_
    cases op <;> rw [name] <;> decide
  have hparen (t : List Char) : ∀ c, ('(' :: t).head? = some c → (c != '(') = false := by
    rintro _ ⟨⟩
    rfl
  obtain ⟨hname, h⟩ := append_inj_of_forall (hletters op) (hletters oq) (hparen r) (hparen s) h
  exact ⟨String.toList_inj.mp hname, (List.cons.inj h).2⟩

end Operation

/-- The symbol of a comparison is cancelled before the closing quote. -/
theorem Comparator.symbol_append_inj {c d : Comparator} {r s : List Char}
    (h : c.symbol.toList ++ '"' :: r = d.symbol.toList ++ '"' :: s) : c = d ∧ r = s := by
  have hunquoted (c : Comparator) : ∀ x ∈ c.symbol.toList, (x != '"') = true := by
    refine List.all_eq_true.mp ?_
    cases c <;> decide
  have hquote (t : List Char) : ∀ x, ('"' :: t).head? = some x → (x != '"') = false := by
    rintro _ ⟨⟩
    rfl
  obtain ⟨hsymbol, h⟩ := append_inj_of_forall (hunquoted c) (hunquoted d) (hquote r) (hquote s) h
  have hinj : c.symbol.toList = d.symbol.toList → c = d := by
    cases c <;> cases d <;> decide
  exact ⟨hinj hsymbol, (List.cons.inj h).2⟩

/-! ### Pipelines -/

namespace Pipeline

variable {r s : List Char}

theorem legible_mk {x : String} {ops : List Operation} :
    (mk x ops).legible = true ↔ IsVariable x ∧ Operation.allLegible ops = true := by
  rw [legible, Bool.and_eq_true, decide_eq_true_eq]

/-- A variable ends before an operation, and before what may stand behind a pipeline. -/
theorem chainText_head (ops : List Operation) (hr : Ends r) :
    ∀ c, ((Operation.chainText ops).toList ++ r).head? = some c → CharClass.isNameChar c = false := by
  cases ops with
  | nil => exact hr.head_ne (by decide)
  | cons op ops =>
    rw [Operation.toList_chainText_cons]
    rintro _ ⟨⟩
    rfl

/-- A value and a pipeline are not written alike. -/
theorem chars_append_ne {v : Value} {p : Pipeline} (hv : v.FloatFree) (hp : p.legible = true) (hr : Ends r)
    (hs : Ends s) : v.chars ++ r ≠ p.text.toList ++ s := by
  obtain ⟨x, ops⟩ := p
  obtain ⟨⟨hname, hword⟩, -⟩ := legible_mk.mp hp
  rw [text, String.toList_append, List.append_assoc]
  intro h
  rcases Value.text_word hv with hv | ⟨c, u, hu, hc⟩
  · have hwords : ∀ w ∈ ["null", "true", "false"], IsName w.toList := by decide
    have hend : ∀ c, r.head? = some c → CharClass.isNameChar c = false := hr.head_ne (by decide)
    rw [← ((hwords _ hv).append_inj hname hend (chainText_head ops hs) h).1] at hword
    exact hword hv
  · obtain ⟨d, t, ht, hd⟩ := hname.exists_cons
    rw [hu, ht] at h
    rw [(List.cons.inj h).1, hd] at hc
    exact nomatch hc

/-- What follows the first of several branches. -/
def branchesMore : List Pipeline → List Char
  | [] => []
  | p :: ps => ',' :: ' ' :: (branchesText (p :: ps)).toList

theorem toList_branchesText_cons (p : Pipeline) (ps : List Pipeline) :
    (branchesText (p :: ps)).toList = p.lambdaText.toList ++ branchesMore ps := by
  cases ps <;> simp [branchesText, branchesMore, String.toList_append]

theorem ends_branchesMore (ps : List Pipeline) (r : List Char) : Ends (branchesMore ps ++ ')' :: r) := by
  cases ps <;> exact .cons (by decide)

theorem branchesText_of_branchesMore {ps qs : List Pipeline}
    (h : branchesMore ps ++ ')' :: r = branchesMore qs ++ ')' :: s) :
    (branchesText ps).toList ++ ')' :: r = (branchesText qs).toList ++ ')' :: s := by
  cases ps <;> cases qs
  · exact h
  · exact absurd (List.cons.inj h).1 (by decide)
  · exact absurd (List.cons.inj h).1 (by decide)
  · exact (List.cons.inj (List.cons.inj h).2).2

/-- Branches begin with a variable, and so with no parenthesis. -/
theorem branchesText_append_ne {p : Pipeline} (hp : p.legible = true) (ps : List Pipeline) :
    (branchesText (p :: ps)).toList ++ r ≠ ')' :: s := by
  obtain ⟨x, ops⟩ := p
  obtain ⟨c, u, hu, hc⟩ := (legible_mk.mp hp).1.1.exists_cons
  simp only [toList_branchesText_cons, lambdaText, String.toList_append, hu, List.cons_append]
  intro h
  rw [(List.cons.inj h).1] at hc
  exact absurd hc (by decide)

end Pipeline

mutual

/-- **A pipeline is told from its text**, before what may stand behind one. -/
theorem Pipeline.text_append_inj : ∀ (p : Pipeline) {q : Pipeline} {r s : List Char}, p.legible = true →
    q.legible = true → Ends r → Ends s → p.text.toList ++ r = q.text.toList ++ s → p = q ∧ r = s
  | .mk x ops, .mk y oqs, r, s, hp, hq, hr, hs, h => by
    rw [Pipeline.legible_mk] at hp hq
    rw [Pipeline.text, Pipeline.text, String.toList_append, String.toList_append, List.append_assoc,
      List.append_assoc] at h
    obtain ⟨rfl, hchain⟩ := hp.1.1.append_inj hq.1.1 (Pipeline.chainText_head ops hr)
      (Pipeline.chainText_head oqs hs) h
    obtain ⟨rfl, hrs⟩ := Operation.chainText_append_inj ops hp.2 hq.2 hr hs hchain
    exact ⟨rfl, hrs⟩

/-- The same for a pipeline that binds its variable. -/
theorem Pipeline.lambdaText_append_inj : ∀ (p : Pipeline) {q : Pipeline} {r s : List Char}, p.legible = true →
    q.legible = true → Ends r → Ends s → p.lambdaText.toList ++ r = q.lambdaText.toList ++ s → p = q ∧ r = s
  | .mk x ops, .mk y oqs, r, s, hp, hq, hr, hs, h => by
    rw [Pipeline.legible_mk] at hp hq
    simp only [Pipeline.lambdaText, String.toList_append, List.append_assoc] at h
    have hspace (t : List Char) :
        ∀ c, (" -> ".toList ++ t).head? = some c → CharClass.isNameChar c = false := by
      rintro _ ⟨⟩
      rfl
    obtain ⟨rfl, harrow⟩ := hp.1.1.append_inj hq.1.1 (hspace _) (hspace _) h
    have hchain := List.append_cancel_left (List.append_cancel_left harrow)
    obtain ⟨rfl, hrs⟩ := Operation.chainText_append_inj ops hp.2 hq.2 hr hs hchain
    exact ⟨rfl, hrs⟩

/-- The same for operations in a row. -/
theorem Operation.chainText_append_inj : ∀ (ops : List Operation) {oqs : List Operation} {r s : List Char},
    Operation.allLegible ops = true → Operation.allLegible oqs = true → Ends r → Ends s →
      (Operation.chainText ops).toList ++ r = (Operation.chainText oqs).toList ++ s → ops = oqs ∧ r = s
  | [], [], _, _, _, _, _, _, h => ⟨rfl, h⟩
  | [], oq :: oqs, r, s, _, _, hr, _, h => by
    rw [Operation.toList_chainText_cons] at h
    exact absurd (congrArg List.head? h) (hr.head?_ne (by decide))
  | op :: ops, [], r, s, _, _, _, hs, h => by
    rw [Operation.toList_chainText_cons] at h
    exact absurd (congrArg List.head? h.symm) (hs.head?_ne (by decide))
  | op :: ops, oq :: oqs, r, s, hp, hq, hr, hs, h => by
    rw [Operation.allLegible, Bool.and_eq_true] at hp hq
    simp only [Operation.toList_chainText_cons, List.cons_append, List.append_assoc, List.cons.injEq,
      true_and] at h
    obtain ⟨hname, hinside⟩ := Operation.name_append_inj h
    have hnamesake := Operation.namesake_of_name_eq hname
    obtain ⟨rfl, hchain⟩ := Operation.inside_append_inj op hnamesake hp.1 hq.1 hinside
    obtain ⟨rfl, hrs⟩ := Operation.chainText_append_inj ops hp.2 hq.2 hr hs hchain
    exact ⟨rfl, hrs⟩

/-- The same for what stands in the parentheses of operations of one name. -/
theorem Operation.inside_append_inj : ∀ (op : Operation) {oq : Operation}, op.Namesake oq →
    op.legible = true → oq.legible = true → ∀ {r s : List Char},
      op.inside.toList ++ ')' :: r = oq.inside.toList ++ ')' :: s → op = oq ∧ r = s
  | .field x, .field y, .field => by
    intro _ _ r s h
    obtain ⟨rfl, hrs⟩ := quote_append_inj h
    exact ⟨rfl, (List.cons.inj hrs).2⟩
  | .index n, .index m, .index => by
    intro _ _ r s h
    obtain ⟨rfl, hrs⟩ := toString_append_inj (.paren r) (.paren s) h
    exact ⟨rfl, (List.cons.inj hrs).2⟩
  | .filter p, .filter q, .filter => by
    intro hp hq r s h
    obtain ⟨rfl, hrs⟩ := Pipeline.lambdaText_append_inj p hp hq (.paren r) (.paren s) h
    exact ⟨rfl, (List.cons.inj hrs).2⟩
  | .compare c p, .compare d q, .compare => by
    intro hp hq r s h
    simp only [Operation.inside, String.toList_append, List.append_assoc] at h
    obtain ⟨rfl, hright⟩ := Comparator.symbol_append_inj (List.cons.inj h).2
    obtain ⟨rfl, hrs⟩ := Pipeline.text_append_inj p hp hq (.paren r) (.paren s)
      (List.cons.inj (List.cons.inj hright).2).2
    exact ⟨rfl, (List.cons.inj hrs).2⟩
  | .or p, .or q, .or | .and p, .and q, .and | .constantOf p, .constantOf q, .constantOf
  | .contains p, .contains q, .contains => by
    intro hp hq r s h
    obtain ⟨rfl, hrs⟩ := Pipeline.text_append_inj p hp hq (.paren r) (.paren s) h
    exact ⟨rfl, (List.cons.inj hrs).2⟩
  | .constant v, .constant w, .constant => by
    intro hp hq r s h
    obtain ⟨rfl, hrs⟩ := Value.text_append_inj (of_decide_eq_true hp) (of_decide_eq_true hq) (.paren r)
      (.paren s) h
    exact ⟨rfl, (List.cons.inj hrs).2⟩
  | .constant v, .constantOf q, .valueAndPipeline => by
    intro hp hq r s h
    exact absurd h (Pipeline.chars_append_ne (of_decide_eq_true hp).1 hq (.paren r) (.paren s))
  | .constantOf p, .constant w, .pipelineAndValue => by
    intro hp hq r s h
    exact absurd h.symm (Pipeline.chars_append_ne (of_decide_eq_true hq).1 hp (.paren r) (.paren s))
  | .multiSelect ps, .multiSelect qs, .multiSelect => fun hp hq _ _ h => by
    obtain ⟨rfl, hrs⟩ := Pipeline.branchesText_append_inj ps hp hq h
    exact ⟨rfl, hrs⟩
  | .flatten, .flatten, .flatten | .wildcard, .wildcard, .wildcard | .not, .not, .not
  | .length, .length, .length => fun _ _ _ _ h => ⟨rfl, (List.cons.inj h).2⟩

/-- The same for branches. -/
theorem Pipeline.branchesText_append_inj : ∀ (ps : List Pipeline) {qs : List Pipeline} {r s : List Char},
    Pipeline.allLegible ps = true → Pipeline.allLegible qs = true →
      (Pipeline.branchesText ps).toList ++ ')' :: r = (Pipeline.branchesText qs).toList ++ ')' :: s →
        ps = qs ∧ r = s
  | [], [], _, _, _, _, h => ⟨rfl, (List.cons.inj h).2⟩
  | [], q :: qs, r, s, _, hq, h => by
    rw [Pipeline.allLegible, Bool.and_eq_true] at hq
    exact absurd h.symm (Pipeline.branchesText_append_ne hq.1 qs)
  | p :: ps, [], r, s, hp, _, h => by
    rw [Pipeline.allLegible, Bool.and_eq_true] at hp
    exact absurd h (Pipeline.branchesText_append_ne hp.1 ps)
  | p :: ps, q :: qs, r, s, hp, hq, h => by
    rw [Pipeline.allLegible, Bool.and_eq_true] at hp hq
    rw [Pipeline.toList_branchesText_cons, Pipeline.toList_branchesText_cons, List.append_assoc,
      List.append_assoc] at h
    obtain ⟨rfl, hmore⟩ := Pipeline.lambdaText_append_inj p hp.1 hq.1 (Pipeline.ends_branchesMore ps r)
      (Pipeline.ends_branchesMore qs s) h
    obtain ⟨rfl, hrs⟩ := Pipeline.branchesText_append_inj ps hp.2 hq.2
      (Pipeline.branchesText_of_branchesMore hmore)
    exact ⟨rfl, hrs⟩

end

/-- **Pipelines with one text are one pipeline.** -/
theorem Pipeline.text_injective {p q : Pipeline} (hp : p.legible = true) (hq : q.legible = true)
    (h : p.text = q.text) : p = q :=
  (Pipeline.text_append_inj p hp hq .nil .nil (congrArg (fun t => t.toList ++ []) h)).1

/-- A member whose name holds a quote and a parenthesis, a filter with an object that it compares with, and
branches one of which gives a pipeline. -/
theorem Pipeline.text_injective_branches :
    let filter : Operation := .filter (.mk "item_0"
      [.compare .le (.mk "d" [.constant (.object [("k", Value.integer (-1)), ("j", .null)])])])
    let list : Operation := .multiSelect [.mk "a" [.constantOf (.mk "d" [.index 0])], .mk "b" [.length, .not]]
    let p : Pipeline := .mk "d" ([.field "x\").not("] ++ [filter, list])
    let q : Pipeline := .mk "d" ([.field "x\").not(", filter] ++ [list])
    p.legible = true ∧ q.legible = true ∧ p.text = q.text ∧ p = q := by
  intro filter list p q
  have hp : p.legible = true := by decide
  have hq : q.legible = true := by decide
  exact ⟨hp, hq, rfl, Pipeline.text_injective hp hq rfl⟩

end PathQuery
