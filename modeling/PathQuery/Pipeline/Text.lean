/-
# The text of a pipeline

A pipeline is written as its variable and then, after a dot each, its operations
as calls. A pipeline inside stands in the parentheses; one that binds a variable
has the variable and an arrow before it.

Key definitions: `Pipeline.text`, `Operation.text`, `Pipeline.lambdaText`.
-/
import PathQuery.Pipeline
import PathQuery.Value.Text

namespace PathQuery

mutual

/-- The text of a pipeline. -/
def Pipeline.text : Pipeline → String
  | .mk v ops => v ++ Operation.chainText ops

/-- The text of a pipeline that binds its variable. -/
def Pipeline.lambdaText : Pipeline → String
  | .mk v ops => v ++ " -> " ++ v ++ Operation.chainText ops

/-- The text of an operation. -/
def Operation.text : Operation → String
  | .field name => "field(" ++ Quoted.quote name ++ ")"
  | .index n => "index(" ++ toString n.toInt ++ ")"
  | .flatten => "flatten()"
  | .wildcard => "wildcard()"
  | .filter p => "filter(" ++ p.lambdaText ++ ")"
  | .compare c p => "compare(\"" ++ c.symbol ++ "\", " ++ p.text ++ ")"
  | .or p => "or(" ++ p.text ++ ")"
  | .and p => "and(" ++ p.text ++ ")"
  | .not => "not()"
  | .constant v => "constant(" ++ Value.text v ++ ")"
  | .constantOf p => "constant(" ++ p.text ++ ")"
  | .length => "length()"
  | .contains p => "contains(" ++ p.text ++ ")"
  | .multiSelect ps => "multiSelectList(" ++ Pipeline.branchesText ps ++ ")"

/-- The texts of operations, each after a dot. -/
def Operation.chainText : List Operation → String
  | [] => ""
  | op :: ops => "." ++ op.text ++ Operation.chainText ops

/-- The texts of branches, with commas between them. -/
def Pipeline.branchesText : List Pipeline → String
  | [] => ""
  | [p] => p.lambdaText
  | p :: q :: ps => p.lambdaText ++ ", " ++ Pipeline.branchesText (q :: ps)

end

end PathQuery
