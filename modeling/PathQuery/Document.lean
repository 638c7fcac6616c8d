/-
# Documents

A document is null, a boolean, a number, a string, an array of documents or an
object, which gives documents to names in the order in which the names came.
What a number is stays open: a JSON text has one kind of numbers and the values
of a pipeline another.

Two documents agree (`agree`) if they have the same shape and their numbers agree
in pairs, where an object is a map: the order of its names does not count.

Key definitions: `Document`, `Fields.lookup`, `Fields.insert`, `Document.agree`,
`Document.mapNumbers`.
Key theorems: `Fields.lookup_insert`, `Fields.keys_insert`,
`Document.mapNumbers_comp`.
-/

namespace PathQuery

/-- A tree of values whose numbers are of type `ν`. -/
inductive Document (ν : Type)
  | null
  | boolean (b : Bool)
  | number (n : ν)
  | string (s : String)
  | array (items : List (Document ν))
  | object (fields : List (String × Document ν))

instance {ν : Type} : Inhabited (Document ν) := ⟨.null⟩

/-! ### Objects -/

namespace Fields

variable {α : Type}

/-- What a name stands for. -/
def lookup (name : String) : List (String × α) → Option α
  | [] => none
  | (k, v) :: rest => if k = name then some v else lookup name rest

/-- Gives a name a new value: in place if the name is there, else at the end. -/
def insert (name : String) (value : α) : List (String × α) → List (String × α)
  | [] => [(name, value)]
  | (k, v) :: rest => if k = name then (k, value) :: rest else (k, v) :: insert name value rest

/-- The names and values of a list of pairs. A name that comes again keeps its
first place and takes the last value. -/
def ofList (pairs : List (String × α)) : List (String × α) :=
  pairs.foldl (fun fields pair => insert pair.1 pair.2 fields) []

theorem lookup_insert (name : String) (value : α) (other : String) : ∀ fields : List (String × α),
    lookup other (insert name value fields) = if name = other then some value else lookup other fields
  | [] => rfl
  | (k, v) :: rest => by
    unfold insert
    split
    · rename_i h
      subst h
      simp only [lookup]
      split <;> rfl
    · rename_i h
      simp only [lookup, lookup_insert name value other rest]
      split
      · rename_i hk
        subst hk
        rw [if_neg (Ne.symm h)]
      · rfl

/-- A new name comes last; a name that is there stays where it is. -/
theorem keys_insert (name : String) (value : α) : ∀ fields : List (String × α),
    (insert name value fields).map Prod.fst =
      if name ∈ fields.map Prod.fst then fields.map Prod.fst else fields.map Prod.fst ++ [name]
  | [] => rfl
  | (k, v) :: rest => by
    unfold insert
    split
    · rename_i h
      simp [h]
    · rename_i h
      simp only [List.map_cons, keys_insert name value rest, List.mem_cons, Ne.symm h, false_or]
      split <;> simp

end Fields

namespace Document

variable {ν μ κ : Type}

/-! ### Agreement -/

mutual

/-- Whether two documents have the same shape and numbers that agree under `eq`. -/
def agree (eq : ν → ν → Bool) : Document ν → Document ν → Bool
  | .null, .null => true
  | .boolean a, .boolean b => a == b
  | .number a, .number b => eq a b
  | .string a, .string b => a == b
  | .array as, .array bs => agreeAll eq as bs
  | .object as, .object bs => as.length == bs.length && agreeFields eq as bs
  | _, _ => false

/-- Whether two lists agree, place by place. -/
def agreeAll (eq : ν → ν → Bool) : List (Document ν) → List (Document ν) → Bool
  | [], [] => true
  | a :: as, b :: bs => agree eq a b && agreeAll eq as bs
  | _, _ => false

/-- Whether every name on the left stands for a document on the right that agrees. -/
def agreeFields (eq : ν → ν → Bool) : List (String × Document ν) → List (String × Document ν) → Bool
  | [], _ => true
  | (k, a) :: as, bs =>
    (match Fields.lookup k bs with
      | some b => agree eq a b
      | none => false) && agreeFields eq as bs

end

/-! ### Other numbers -/

mutual

/-- The document with each number replaced by a document. -/
def mapNumbers (f : ν → Document μ) : Document ν → Document μ
  | .null => .null
  | .boolean b => .boolean b
  | .number n => f n
  | .string s => .string s
  | .array items => .array (mapItems f items)
  | .object fields => .object (mapFields f fields)

/-- The same for each item of an array. -/
def mapItems (f : ν → Document μ) : List (Document ν) → List (Document μ)
  | [] => []
  | d :: rest => mapNumbers f d :: mapItems f rest

/-- The same for each value of an object. -/
def mapFields (f : ν → Document μ) : List (String × Document ν) → List (String × Document μ)
  | [] => []
  | (k, d) :: rest => (k, mapNumbers f d) :: mapFields f rest

end

mutual

/-- Two replacements in turn are one. -/
theorem mapNumbers_comp (f : ν → Document μ) (g : μ → Document κ) : ∀ d : Document ν,
    mapNumbers g (mapNumbers f d) = mapNumbers (fun n => mapNumbers g (f n)) d
  | .null | .boolean _ | .string _ | .number _ => rfl
  | .array items => by simp [mapNumbers, mapItems_comp f g items]
  | .object fields => by simp [mapNumbers, mapFields_comp f g fields]

theorem mapItems_comp (f : ν → Document μ) (g : μ → Document κ) : ∀ items : List (Document ν),
    mapItems g (mapItems f items) = mapItems (fun n => mapNumbers g (f n)) items
  | [] => rfl
  | d :: rest => by simp [mapItems, mapNumbers_comp f g d, mapItems_comp f g rest]

theorem mapFields_comp (f : ν → Document μ) (g : μ → Document κ) :
    ∀ fields : List (String × Document ν),
      mapFields g (mapFields f fields) = mapFields (fun n => mapNumbers g (f n)) fields
  | [] => rfl
  | (k, d) :: rest => by simp [mapFields, mapNumbers_comp f g d, mapFields_comp f g rest]

end

end Document

end PathQuery
