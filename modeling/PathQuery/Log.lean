/-
# The log of a query

What happens in a query is recorded in order: the text is read, its scopes are
entered and left, its pipeline stands, and each operation is applied. A query
that fails has recorded what came before.

Key definitions: `Record`, `Record.text`, `Query.parseRecords`, `Query.traced`.
-/
import PathQuery.Query
import PathQuery.Text.Quoted

namespace PathQuery

/-- One event of a query. -/
inductive Record
  /-- A text of so many characters is about to be read. -/
  | parsing (size : Nat)
  /-- A text is an expression. -/
  | parsed (text : String)
  /-- A text is none. -/
  | failed (text : String) (failure : Failure)
  /-- A scope is entered or left. -/
  | scope (event : ScopeEvent)
  /-- A pipeline of so many operations stands. -/
  | compiled (subject : String) (operations : Nat)
  /-- An operation is about to be applied. -/
  | step (step : Step)

/-- The line of a record: its level and its words. -/
def Record.text : Record → String
  | .parsing size => "DEBUG parsing expression of " ++ toString size ++ " characters"
  | .parsed text => "DEBUG parsed expression " ++ Quoted.inspect text
  | .failed text failure => "DEBUG failed to parse " ++ Quoted.inspect text ++ ": " ++ failure.message
  | .scope (.enter name depth) => "TRACE enter scope " ++ name ++ " at depth " ++ toString depth
  | .scope (.leave name) => "TRACE leave scope " ++ name
  | .compiled subject operations =>
    "DEBUG interpreted expression against " ++ subject ++ " into " ++ toString operations ++ " operations"
  | .step ⟨operation, type, projecting⟩ =>
    "TRACE apply " ++ operation ++ " to " ++ type ++ if projecting then " projection" else ""

namespace Query

/-- What reading a text records. Of an empty text only its size is recorded. -/
def parseRecords (text : String) (result : Except Failure Expr) : List Record :=
  .parsing text.length ::
    if text.isEmpty then []
    else
      match result with
      | .ok _ => [.parsed text]
      | .error f => [.failed text f]

/-- What compiling records. -/
def compileRecords (subject : String) (result : Except CompileError Pipeline) (events : List ScopeEvent) :
    List Record :=
  events.map .scope ++
    match result with
    | .ok p => [.compiled subject p.operations.length]
    | .error _ => []

/-- A run that collects its steps, the last one first. -/
abbrev Tracing := ExceptT EvalError (StateM (List Step))

/-- Puts a step to those collected. -/
def collect (s : Step) : Tracing Unit := modify (s :: ·)

/-- The result of a pipeline on a document, and the steps in order. -/
def tracedRun (p : Pipeline) (document : Value) : Except EvalError Value × List Step :=
  let (result, steps) := (p.run collect [(p.subject, document)] : Tracing Value) []
  (result, steps.reverse)

/-- The result of an expression on a document, and what happened on the way. -/
def traced (text : String) (document : Value) : Except Error Value × List Record :=
  let session := Session.usual
  let read := Expr.parse session.limits text
  match read with
  | .error f => (.error (.pipeline (.parse f)), parseRecords text read)
  | .ok e =>
    let (compiled, session) := session.compile e input
    let records := parseRecords text read ++ compileRecords input compiled session.naming.events
    match compiled with
    | .error err => (.error (.pipeline (.compile err)), records)
    | .ok p =>
      let (result, steps) := tracedRun p document
      (result.mapError .eval, records ++ steps.map .step)

end Query

end PathQuery
