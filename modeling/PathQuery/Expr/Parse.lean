/-
# The expression of a text

An expression is the first form that a range matches. Each expression inside
another costs one level of a budget, so reading ends; a range for which no level
is left is refused there, and the forms around it go on with what else they can
try.

Key definitions: `Limits`, `Expr.rule`, `Expr.parse`, `Expr.parseIdentifier`.
-/
import PathQuery.Form

namespace PathQuery

/-- What a text may ask of its reader. -/
structure Limits where
  /-- How deep expressions may nest. -/
  maxDepth : Nat := 256
deriving DecidableEq, Repr

namespace Expr

/-- An expression that nests at most `budget` deep, of `limit` levels in all. -/
def rule (src : Source) (limit : Nat) : (budget : Nat) → Rule Expr
  | 0, s => do
    let t ← Token.bounded src "expression" s
    Rule.fail "expression" (.tooDeep limit) t.start
  | budget + 1, s => do
    let t ← Token.bounded src "expression" s
    Rule.oneOf "expression" (Form.all src (rule src limit budget)) t

/-- The expression that a text is as a whole. -/
def parse (limits : Limits) (text : String) : Except Failure Expr :=
  let src := Source.ofString text
  if src.size = 0 then Rule.fail "expression" (.emptyText "expression") 0
  else rule src limits.maxDepth limits.maxDepth src.whole

/-- The name that a text is as a whole. -/
def parseIdentifier (text : String) : Except Failure String :=
  let src := Source.ofString text
  if src.size = 0 then Rule.fail "identifier" (.emptyText "identifier") 0
  else Token.identifier src src.whole

end Expr

end PathQuery
