/-
# From a text to a result

`compile` reads an expression and gives its pipeline, and `search` runs that on a
document. A session compiles one text after another and goes on counting its
variables, also past a text that fails.

Key definitions: `PipelineError`, `Session`, `Session.step`, `Query.Error`,
`Query.compile`, `Query.search`.
-/
import PathQuery.Expr.Parse
import PathQuery.Pipeline.Compile
import PathQuery.Pipeline.Run

namespace PathQuery

/-! ### Sessions -/

/-- Why a text has no pipeline. -/
inductive PipelineError
  | parse (failure : Failure)
  | compile (error : CompileError)

/-- The words for it. -/
def PipelineError.message : PipelineError → String
  | .parse failure => failure.message
  | .compile error => error.message

/-- What texts are read with, and the naming of variables so far. -/
structure Session where
  limits : Limits
  naming : Naming
deriving DecidableEq, Repr

namespace Session

/-- Nothing compiled yet. -/
def start (limits : Limits) (stem : String) : Session := ⟨limits, .start stem⟩

/-- The pipeline of a tree that reads `subject`, and the session after it. -/
def compile (s : Session) (e : Expr) (subject : String) : Except CompileError Pipeline × Session :=
  let (result, naming) := e.compile subject s.naming
  (result, { s with naming := naming })

/-- The pipeline of a text that reads `subject`, and the session after it. -/
def step (s : Session) (text subject : String) : Except PipelineError Pipeline × Session :=
  match Expr.parse s.limits text with
  | .error f => (.error (.parse f), s)
  | .ok e =>
    let (result, s) := s.compile e subject
    (result.mapError .compile, s)

/-- The pipelines of several texts in turn, each with what it reads. -/
def steps (s : Session) : List (String × String) → List (Except PipelineError Pipeline)
  | [] => []
  | (text, subject) :: rest =>
    let (result, s) := s.step text subject
    result :: s.steps rest

/-- A session with the usual limits and variables `x0`, `x1` and so on. -/
def usual : Session := start {} "x"

end Session

/-! ### Queries -/

namespace Query

/-- Why a query has no result. -/
inductive Error
  | pipeline (error : PipelineError)
  | eval (error : EvalError)

/-- The words for it. -/
def Error.message : Error → String
  | .pipeline error => error.message
  | .eval error => error.message

/-- The pipeline of a text that reads `subject`. -/
def compile (text subject : String) : Except PipelineError Pipeline :=
  (Session.usual.step text subject).1

/-- What a query starts from. -/
def input : String := "input"

/-- Whether two expressions have the same pipeline, or fail to have one for the same
reason. -/
def samePipeline (e f : Expr) : Bool :=
  match (Session.usual.compile e input).1, (Session.usual.compile f input).1 with
  | .ok p, .ok q => p.same q
  | .error x, .error y => x == y
  | _, _ => false

/-- The result of an expression on a document. -/
def search (text : String) (document : Value) : Except Error Value :=
  match compile text input with
  | .error e => .error (.pipeline e)
  | .ok p => (p.evaluate document).mapError .eval

end Query

end PathQuery
