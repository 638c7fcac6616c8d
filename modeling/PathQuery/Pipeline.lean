/-
# Pipelines

A pipeline names the variable it reads and the operations that its value goes
through. An operation may hold pipelines of its own: the other side of a
comparison, the test of a filter, the branches of a new list. Those of a filter
and of a list bind a variable of their own.

Key definitions: `Pipeline`, `Operation`, `Operation.name`,
`Operation.distributes`, `Pipeline.same`.
-/
import PathQuery.Expr
import PathQuery.Value

namespace PathQuery

mutual

/-- A variable and the operations on its value. -/
inductive Pipeline
  | mk (subject : String) (operations : List Operation)

/-- One step of a pipeline. -/
inductive Operation
  /-- The member of a name. -/
  | field (name : String)
  /-- The item at a place; negative places count from the end. -/
  | index (n : Int64)
  /-- The items with one level of arrays merged, as a projection. -/
  | flatten
  /-- The items or the members' values, as a projection. -/
  | wildcard
  /-- The items for which a pipeline gives something true, as a projection. -/
  | filter (predicate : Pipeline)
  /-- Compares with what a pipeline gives. -/
  | compare (c : Comparator) (right : Pipeline)
  /-- What a pipeline gives, unless the value is true. -/
  | or (right : Pipeline)
  /-- What a pipeline gives, if the value is true. -/
  | and (right : Pipeline)
  /-- Whether the value is not true. -/
  | not
  /-- A fixed value instead. -/
  | constant (v : Value)
  /-- What a pipeline gives instead. -/
  | constantOf (p : Pipeline)
  /-- How many items, members or characters. -/
  | length
  /-- Whether what a pipeline gives is among the items or in the string. -/
  | contains (needle : Pipeline)
  /-- The array of what the branches give. -/
  | multiSelect (branches : List Pipeline)

end

/-- The variable that a pipeline reads. -/
def Pipeline.subject : Pipeline → String
  | .mk v _ => v

/-- The operations of a pipeline, in order. -/
def Pipeline.operations : Pipeline → List Operation
  | .mk _ ops => ops

namespace Operation

/-- What a record calls an operation. -/
def name : Operation → String
  | .field _ => "field"
  | .index _ => "index"
  | .flatten => "flatten"
  | .wildcard => "wildcard"
  | .filter _ => "filter"
  | .compare _ _ => "compare"
  | .or _ => "or"
  | .and _ => "and"
  | .not => "not"
  | .constant _ => "constant"
  | .constantOf _ => "constant"
  | .length => "length"
  | .contains _ => "contains"
  | .multiSelect _ => "multiSelectList"

/-- Whether an operation on a projection is done on each of its items. The others
take the projection as one array. -/
def distributes : Operation → Bool
  | .field _ | .index _ | .wildcard | .filter _ | .multiSelect _ => true
  | _ => false

end Operation

/-! ### Equality -/

mutual

/-- Whether two pipelines are the same. -/
def Pipeline.same : Pipeline → Pipeline → Bool
  | .mk v ops, .mk w oqs => v == w && Operation.sameAll ops oqs

/-- Whether two operations are the same. -/
def Operation.same : Operation → Operation → Bool
  | .field n, .field m => n == m
  | .index n, .index m => n == m
  | .flatten, .flatten => true
  | .wildcard, .wildcard => true
  | .filter p, .filter q => p.same q
  | .compare c p, .compare d q => c == d && p.same q
  | .or p, .or q => p.same q
  | .and p, .and q => p.same q
  | .not, .not => true
  | .constant v, .constant w => Value.same v w
  | .constantOf p, .constantOf q => p.same q
  | .length, .length => true
  | .contains p, .contains q => p.same q
  | .multiSelect ps, .multiSelect qs => Pipeline.sameAll ps qs
  | _, _ => false

/-- Whether two lists of operations are the same, place by place. -/
def Operation.sameAll : List Operation → List Operation → Bool
  | [], [] => true
  | p :: ps, q :: qs => p.same q && Operation.sameAll ps qs
  | _, _ => false

/-- Whether two lists of pipelines are the same, place by place. -/
def Pipeline.sameAll : List Pipeline → List Pipeline → Bool
  | [], [] => true
  | p :: ps, q :: qs => p.same q && Pipeline.sameAll ps qs
  | _, _ => false

end

end PathQuery
