/-
# What holds all over a document

Three things are said of a document as a whole: a property that each number in it has
(`Every`), that no object in it has a name twice (`Distinct`, which is so of every value a
program can hold), and how deep arrays and objects stand in one another (`nesting`). What
passes from the items of an array and the values of an object to these holds of every
document (`Document.byParts`).

With distinct names a name stands for the value that is beside it. So a document agrees
with itself if its numbers do, and where it agrees with a copy of itself in which the
numbers were replaced, each number agrees with what it was replaced by.

Key definitions: `Document.Every`, `Document.Distinct`, `Document.nesting`.
Key theorems: `Document.byParts`, `Fields.lookup_of_mem`, `Document.mapNumbers_eq_self`,
`Document.agree_self`, `Document.every_of_agree`.
-/
import Mathlib.Data.List.Nodup
import PathQuery.Document

namespace PathQuery

namespace Fields

variable {α : Type} {k : String} {v : α}

/-- A name that comes once stands for what is beside it. -/
theorem lookup_of_mem : ∀ {fields : List (String × α)}, (fields.map Prod.fst).Nodup → (k, v) ∈ fields →
    lookup k fields = some v
  | (l, w) :: rest, hn, hm => by
    rw [List.map_cons, List.nodup_cons] at hn
    unfold lookup
    rcases List.mem_cons.mp hm with h | h
    · cases h
      exact if_pos rfl
    · have hne : l ≠ k := by
        rintro rfl
        exact hn.1 (List.mem_map.mpr ⟨(l, v), h, rfl⟩)
      rw [if_neg hne]
      exact lookup_of_mem hn.2 h

theorem insert_of_not_mem : ∀ {fields : List (String × α)}, k ∉ fields.map Prod.fst →
    insert k v fields = fields ++ [(k, v)]
  | [], _ => rfl
  | (l, w) :: rest, h => by
    rw [List.map_cons, List.mem_cons, not_or] at h
    unfold insert
    rw [if_neg (Ne.symm h.1), insert_of_not_mem h.2, List.cons_append]

/-- Pairs with distinct names stay as they are. -/
theorem ofList_of_nodup {pairs : List (String × α)} (h : (pairs.map Prod.fst).Nodup) : ofList pairs = pairs := by
  have hfold : ∀ (rest done : List (String × α)), ((done ++ rest).map Prod.fst).Nodup →
      rest.foldl (fun fields pair => insert pair.1 pair.2 fields) done = done ++ rest := by
    intro rest
    induction rest with
    | nil => exact fun done _ => (List.append_nil done).symm
    | cons pair rest ih =>
      intro done hn
      have hnew : pair.1 ∉ done.map Prod.fst := by
        rw [List.map_append, List.map_cons, List.nodup_append] at hn
        exact fun hm => hn.2.2 _ hm _ List.mem_cons_self rfl
      rw [List.append_cons] at hn ⊢
      rw [List.foldl_cons, insert_of_not_mem hnew]
      exact ih _ hn
  exact hfold pairs [] h

end Fields

namespace Document

variable {ν μ : Type} {p q : ν → Prop}

/-- **What passes from the parts of a document to it holds of all documents.** -/
theorem byParts {P : Document ν → Prop} (null : P .null) (boolean : ∀ b, P (.boolean b))
    (number : ∀ n, P (.number n)) (string : ∀ s, P (.string s))
    (array : ∀ items, (∀ d ∈ items, P d) → P (.array items))
    (object : ∀ fields, (∀ field ∈ fields, P field.2) → P (.object fields)) (d : Document ν) : P d :=
  @Document.rec ν P (fun items => ∀ d ∈ items, P d) (fun fields => ∀ field ∈ fields, P field.2)
    (fun field => P field.2)
    null boolean number string array object
    nofun (fun _ _ hd hrest => List.forall_mem_cons.mpr ⟨hd, hrest⟩)
    nofun (fun _ _ hd hrest => List.forall_mem_cons.mpr ⟨hd, hrest⟩) (fun _ _ hd => hd) d

/-! ### Each number -/

mutual

/-- Each number of a document has a property. -/
def Every (p : ν → Prop) : Document ν → Prop
  | .number n => p n
  | .array items => EveryItem p items
  | .object fields => EveryField p fields
  | .null | .boolean _ | .string _ => True

/-- The same for each item of an array. -/
def EveryItem (p : ν → Prop) : List (Document ν) → Prop
  | [] => True
  | d :: rest => Every p d ∧ EveryItem p rest

/-- The same for each value of an object. -/
def EveryField (p : ν → Prop) : List (String × Document ν) → Prop
  | [] => True
  | (_, d) :: rest => Every p d ∧ EveryField p rest

end

mutual

/-- Whether each number has a property, if that can be decided of a number. -/
def decideEvery (p : ν → Prop) [DecidablePred p] : (d : Document ν) → Decidable (Every p d)
  | .number n => inferInstanceAs (Decidable (p n))
  | .array items => decideEveryItem p items
  | .object fields => decideEveryField p fields
  | .null | .boolean _ | .string _ => .isTrue trivial

/-- The same for each item of an array. -/
def decideEveryItem (p : ν → Prop) [DecidablePred p] :
    (items : List (Document ν)) → Decidable (EveryItem p items)
  | [] => .isTrue trivial
  | d :: rest => @instDecidableAnd _ _ (decideEvery p d) (decideEveryItem p rest)

/-- The same for each value of an object. -/
def decideEveryField (p : ν → Prop) [DecidablePred p] :
    (fields : List (String × Document ν)) → Decidable (EveryField p fields)
  | [] => .isTrue trivial
  | (_, d) :: rest => @instDecidableAnd _ _ (decideEvery p d) (decideEveryField p rest)

end

instance [DecidablePred p] : DecidablePred (Every p) := decideEvery p

theorem every_array {items : List (Document ν)} : Every p (.array items) ↔ ∀ d ∈ items, Every p d := by
  rw [Every]
  induction items with
  | nil => simp [EveryItem]
  | cons d rest ih => rw [EveryItem, ih, List.forall_mem_cons]

theorem every_object {fields : List (String × Document ν)} :
    Every p (.object fields) ↔ ∀ field ∈ fields, Every p field.2 := by
  rw [Every]
  induction fields with
  | nil => simp [EveryField]
  | cons field rest ih => rw [EveryField, ih, List.forall_mem_cons]

/-- A property that follows from another one. -/
theorem Every.imp (h : ∀ n, p n → q n) {d : Document ν} : Every p d → Every q d := by
  induction d using byParts with
  | null | boolean | string => exact fun _ => trivial
  | number n => exact h n
  | array items ih =>
    rw [every_array, every_array]
    exact fun hp d hd => ih d hd (hp d hd)
  | object fields ih =>
    rw [every_object, every_object]
    exact fun hp field hf => ih field hf (hp field hf)

/-! ### Names -/

mutual

/-- No object in a document has a name twice. -/
def Distinct : Document ν → Prop
  | .array items => DistinctItems items
  | .object fields => (fields.map Prod.fst).Nodup ∧ DistinctFields fields
  | .null | .boolean _ | .number _ | .string _ => True

/-- The same for each item of an array. -/
def DistinctItems : List (Document ν) → Prop
  | [] => True
  | d :: rest => Distinct d ∧ DistinctItems rest

/-- The same for each value of an object. -/
def DistinctFields : List (String × Document ν) → Prop
  | [] => True
  | (_, d) :: rest => Distinct d ∧ DistinctFields rest

end

mutual

/-- Whether no object has a name twice. -/
def decideDistinct : (d : Document ν) → Decidable d.Distinct
  | .array items => decideDistinctItems items
  | .object fields => @instDecidableAnd _ _ inferInstance (decideDistinctFields fields)
  | .null | .boolean _ | .number _ | .string _ => .isTrue trivial

/-- The same for each item of an array. -/
def decideDistinctItems : (items : List (Document ν)) → Decidable (DistinctItems items)
  | [] => .isTrue trivial
  | d :: rest => @instDecidableAnd _ _ (decideDistinct d) (decideDistinctItems rest)

/-- The same for each value of an object. -/
def decideDistinctFields : (fields : List (String × Document ν)) → Decidable (DistinctFields fields)
  | [] => .isTrue trivial
  | (_, d) :: rest => @instDecidableAnd _ _ (decideDistinct d) (decideDistinctFields rest)

end

instance : DecidablePred fun d : Document ν => d.Distinct := decideDistinct

theorem distinct_array {items : List (Document ν)} : Distinct (.array items) ↔ ∀ d ∈ items, d.Distinct := by
  rw [Distinct]
  induction items with
  | nil => simp [DistinctItems]
  | cons d rest ih => rw [DistinctItems, ih, List.forall_mem_cons]

theorem distinct_object {fields : List (String × Document ν)} :
    Distinct (.object fields) ↔ (fields.map Prod.fst).Nodup ∧ ∀ field ∈ fields, field.2.Distinct := by
  rw [Distinct]
  refine and_congr Iff.rfl ?_
  induction fields with
  | nil => simp [DistinctFields]
  | cons field rest ih => rw [DistinctFields, ih, List.forall_mem_cons]

/-! ### Depth -/

mutual

/-- How many arrays and objects stand in one another, at most. -/
def nesting : Document ν → Nat
  | .array items => itemsNesting items + 1
  | .object fields => fieldsNesting fields + 1
  | .null | .boolean _ | .number _ | .string _ => 0

/-- The same over the items of an array. -/
def itemsNesting : List (Document ν) → Nat
  | [] => 0
  | d :: rest => max (nesting d) (itemsNesting rest)

/-- The same over the values of an object. -/
def fieldsNesting : List (String × Document ν) → Nat
  | [] => 0
  | (_, d) :: rest => max (nesting d) (fieldsNesting rest)

end

theorem nesting_array_le {items : List (Document ν)} {n : Nat} :
    nesting (.array items) ≤ n + 1 ↔ ∀ d ∈ items, d.nesting ≤ n := by
  rw [nesting, Nat.add_le_add_iff_right]
  induction items with
  | nil => simp [itemsNesting]
  | cons d rest ih => rw [itemsNesting, Nat.max_le, ih, List.forall_mem_cons]

theorem nesting_object_le {fields : List (String × Document ν)} {n : Nat} :
    nesting (.object fields) ≤ n + 1 ↔ ∀ field ∈ fields, field.2.nesting ≤ n := by
  rw [nesting, Nat.add_le_add_iff_right]
  induction fields with
  | nil => simp [fieldsNesting]
  | cons field rest ih => rw [fieldsNesting, Nat.max_le, ih, List.forall_mem_cons]

/-! ### Other numbers -/

theorem mapNumbers_array (f : ν → Document μ) (items : List (Document ν)) :
    mapNumbers f (.array items) = .array (items.map (mapNumbers f)) := by
  rw [mapNumbers]
  congr 1
  induction items with
  | nil => rfl
  | cons d rest ih => rw [mapItems, ih, List.map_cons]

theorem mapNumbers_object (f : ν → Document μ) (fields : List (String × Document ν)) :
    mapNumbers f (.object fields) = .object (fields.map fun field => (field.1, mapNumbers f field.2)) := by
  rw [mapNumbers]
  congr 1
  induction fields with
  | nil => rfl
  | cons field rest ih => rw [mapFields, ih, List.map_cons]

/-- A document whose numbers are replaced by themselves stays as it is. -/
theorem mapNumbers_eq_self {f : ν → Document ν} {d : Document ν} :
    Every (fun n => f n = .number n) d → mapNumbers f d = d := by
  induction d using byParts with
  | null | boolean | string => exact fun _ => rfl
  | number n => exact id
  | array items ih =>
    rw [every_array, mapNumbers_array]
    intro h
    rw [List.map_congr_left fun d hd => ih d hd (h d hd), List.map_id']
  | object fields ih =>
    rw [every_object, mapNumbers_object]
    intro h
    rw [List.map_congr_left fun field hf => congrArg (Prod.mk field.1) (ih field hf (h field hf)), List.map_id']

/-! ### Agreement -/

variable {eq : ν → ν → Bool}

theorem agree_array {as bs : List (Document ν)} :
    agree eq (.array as) (.array bs) = true ↔ List.Forall₂ (fun a b => agree eq a b = true) as bs := by
  rw [agree]
  induction as generalizing bs with
  | nil => cases bs <;> simp [agreeAll]
  | cons a as ih =>
    cases bs with
    | nil => simp [agreeAll]
    | cons b bs => rw [agreeAll, Bool.and_eq_true, ih, List.forall₂_cons]

theorem agreeFields_iff {as bs : List (String × Document ν)} :
    agreeFields eq as bs = true ↔ ∀ a ∈ as, ∃ b, Fields.lookup a.1 bs = some b ∧ agree eq a.2 b = true := by
  induction as with
  | nil => simp [agreeFields]
  | cons a as ih =>
    rw [agreeFields, Bool.and_eq_true, ih, List.forall_mem_cons]
    refine and_congr ?_ Iff.rfl
    cases Fields.lookup a.1 bs <;> simp

theorem agree_object {as bs : List (String × Document ν)} :
    agree eq (.object as) (.object bs) = true ↔
      as.length = bs.length ∧ ∀ a ∈ as, ∃ b, Fields.lookup a.1 bs = some b ∧ agree eq a.2 b = true := by
  rw [agree, Bool.and_eq_true, beq_iff_eq, agreeFields_iff]

/-- **A document agrees with itself if each of its numbers does.** -/
theorem agree_self {d : Document ν} : d.Distinct → Every (fun n => eq n n = true) d → agree eq d d = true := by
  induction d using byParts with
  | null => exact fun _ _ => rfl
  | boolean | string => exact fun _ _ => beq_self_eq_true _
  | number n => exact fun _ h => h
  | array items ih =>
    rw [distinct_array, every_array, agree_array, List.forall₂_same]
    exact fun hd h d hm => ih d hm (hd d hm) (h d hm)
  | object fields ih =>
    rw [distinct_object, every_object, agree_object]
    intro hd h
    refine ⟨rfl, fun field hm => ⟨field.2, Fields.lookup_of_mem hd.1 hm, ?_⟩⟩
    exact ih field hm (hd.2 field hm) (h field hm)

/-- **A document that agrees with itself after its numbers were replaced has numbers that
agree with what replaced them.** -/
theorem every_of_agree {f : ν → Document ν} {d : Document ν} : d.Distinct → agree eq (mapNumbers f d) d = true →
    Every (fun n => agree eq (f n) (.number n) = true) d := by
  induction d using byParts with
  | null | boolean | string => exact fun _ _ => trivial
  | number n => exact fun _ h => h
  | array items ih =>
    rw [distinct_array, every_array, mapNumbers_array, agree_array, List.forall₂_map_left_iff, List.forall₂_same]
    exact fun hd h d hm => ih d hm (hd d hm) (h d hm)
  | object fields ih =>
    rw [distinct_object, every_object, mapNumbers_object, agree_object]
    rintro hd ⟨-, h⟩ field hm
    obtain ⟨b, hb, hagree⟩ := h _ (List.mem_map_of_mem hm)
    cases (Fields.lookup_of_mem hd.1 hm).symm.trans hb
    exact ih field hm (hd.2 field hm) hagree

end Document

end PathQuery
