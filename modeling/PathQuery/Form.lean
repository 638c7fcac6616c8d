/-
# The forms of an expression

Sixteen forms, each a rule that is given the rule for the expressions inside it.
A form that joins two expressions is looked for at each place of its symbol, left
to right, and the first place where both sides match is taken. There is no other
precedence than the order in which the forms are tried.

Key definitions: `Form.dotted`, `Form.indexed`, `Form.comparison`, `Form.joined`,
`Form.negated`, `Form.parenthesised`, `Form.bracket`, `Form.listOf`,
`Form.hashOf`, `Form.call`, `Form.all`.
-/
import PathQuery.Expr
import PathQuery.Token

namespace PathQuery
namespace Form

variable (src : Source) (nested : Rule Expr)

/-- One character that stands for a whole form. -/
def mark {α : Type} (rule : String) (c : Char) (a : α) : Rule α := fun s =>
  (Token.single src rule c s).map fun _ => a

/-! ### Operators -/

/-- Two expressions around a symbol. -/
def joined (rule symbol : String) (op : Operator) : Rule Expr := fun s => do
  let t ← Token.bounded src rule s
  match Rule.firstSplit t (src.findAll t.inner symbol.toList) symbol.length nested nested with
  | some (l, r) => .ok (.binary op l r)
  | none => Rule.fail rule (.noSplit "binary-expression") t.start

/-- Two expressions around the symbol of a comparison. A symbol is looked for at
every place before the next symbol is. -/
def comparison : Rule Expr := fun s => do
  let t ← Token.bounded src "comparator-expression" s
  let split (c : Comparator) : Option Expr :=
    (Rule.firstSplit t (src.findAll t c.symbol.toList) c.symbol.length nested nested).map
      fun sides => .binary (.compare c) sides.1 sides.2
  match Comparator.all.findSome? split with
  | some e => .ok e
  | none => Rule.fail "comparator-expression" (.noSplit "comparator expression") t.start

/-- An exclamation mark and an expression. -/
def negated : Rule Expr := fun s => do
  let t ← Token.bounded src "not-expression" s
  if src.charAt t.start ≠ some '!' then Rule.fail "not-expression" (.missingChar '!') t.start
  else (nested ⟨t.start + 1, t.stop⟩).map .not

/-- An expression between parentheses. -/
def parenthesised : Rule Expr := fun s => do
  let t ← Token.bounded src "paren-expression" s
  if src.charAt t.start ≠ some '(' then Rule.fail "paren-expression" (.missingChar '(') t.start
  else if t.length < 2 ∨ src.charAt (t.stop - 1) ≠ some ')' then
    Rule.fail "paren-expression" (.missingChar ')') (t.stop - 1)
  else (nested t.inner).map .paren

/-! ### Lists, objects and calls -/

/-- A list of expressions between square brackets. -/
def listOf : Rule Selector := fun s => (Rule.entries src '[' ']' nested s).map .list

/-- A name, a colon and an expression. -/
def keyValue : Rule Entry := fun s => do
  let t ← Token.bounded src "keyval-expr" s
  match Rule.firstSplit t (src.findAll t.inner [':']) 1 (Token.identifier src) nested with
  | some (k, v) => .ok (.mk k v)
  | none => Rule.fail "keyval-expr" (.noSplit "keyval-expr") t.start

/-- A list of names and expressions between braces. -/
def hashOf : Rule Selector := fun s =>
  (Rule.entries src '\x7b' '\x7d' (keyValue src nested) s).map .hash

/-- An ampersand and an expression. -/
def reference : Rule Expr := fun s => do
  let t ← Token.bounded src "expression-type" s
  if src.charAt t.start ≠ some '&' then Rule.fail "expression-type" (.missingChar '&') t.start
  else nested ⟨t.start + 1, t.stop⟩

/-- An argument of a function. -/
def argument : Rule Argument :=
  Rule.oneOf "function-arg"
    [fun s => (nested s).map .value, fun s => (reference src nested s).map .reference]

/-- Parentheses with nothing but spaces between them. -/
def noArguments : Rule (List Argument) := fun s => do
  let t ← Token.bounded src "no-args" s
  if src.charAt t.start ≠ some '(' then Rule.fail "no-args" (.missingChar '(') t.start
  else
    let close := src.trimLeft ⟨t.start + 1, t.stop⟩
    if t.stop ≤ close ∨ src.charAt close ≠ some ')' then Rule.fail "no-args" (.missingChar ')') close
    else if close + 1 ≠ t.stop then Rule.fail "no-args" .unexpectedChar (close + 1)
    else .ok []

/-- What a function is given. -/
def arguments : Rule (List Argument) :=
  Rule.oneOf "function-arguments" [noArguments src, Rule.entries src '(' ')' (argument src nested)]

/-- The name of a function, from its failure as a name. -/
def functionName (t : Span) (paren : Nat) : Except Failure String :=
  (Token.name src ⟨t.start, paren⟩).mapError fun f =>
    .leaf "function-expression" (.functionName f.reason) t.start

/-- A name and arguments between parentheses. -/
def call : Rule Selector := fun s => do
  let t ← Token.bounded src "function-expression" s
  let paren := (src.findChar t '(').getD t.start
  if paren = t.start then Rule.fail "function-expression" (.missing "function") t.start
  else do
    let name ← functionName src t paren
    (arguments src nested ⟨paren, t.stop⟩).map (.call name)

/-! ### Dots and brackets -/

/-- A star on its own. -/
def star : Rule Selector := mark src "star-expression" '*' .star

/-- A name on its own. -/
def identifier : Rule Selector := fun s => (Token.identifier src s).map .identifier

/-- What may stand after a dot. -/
def afterDot : Rule Selector :=
  Rule.oneOf "sub-expression-right"
    [identifier src, listOf src nested, hashOf src nested, call src nested, star src]

/-- An expression, a dot and a selector. -/
def dotted : Rule Expr := fun s => do
  let t ← Token.bounded src "sub-expression" s
  match Rule.firstSplit t (src.findAll t.inner ['.']) 1 nested (afterDot src nested) with
  | some (l, r) => .ok (.dot l r)
  | none => Rule.fail "sub-expression" (.noSplit "sub-expression") t.start

/-- A bound of a slice, or nothing but spaces. -/
def sliceBound : Rule (Option Int64) := fun s =>
  if (src.slice s).all (· == ' ') then .ok none else (Token.number src s).map some

/-- Up to three bounds with colons between them. -/
def slice : Rule Slice := fun s => do
  let t ← Token.bounded src "slice-expression" s
  match src.findChar t ':' with
  | none => Rule.fail "slice-expression" (.missing "slice expression") t.start
  | some first => do
    let second := src.findChar ⟨first + 1, t.stop⟩ ':'
    let start ← sliceBound src ⟨t.start, first⟩
    let stop ← sliceBound src ⟨first + 1, second.getD t.stop⟩
    let step ← sliceBound src ⟨(second.map (· + 1)).getD t.stop, t.stop⟩
    .ok ⟨start, stop, step⟩

/-- What stands between square brackets that hold something else than a filter. -/
def bracketContent : Rule Bracket :=
  Rule.oneOf "bracket-specifier-content"
    [fun s => (Token.number src s).map .number, mark src "star-expression" '*' .star,
      fun s => (slice src s).map .slice]

/-- Square brackets. -/
def bracket : Rule Bracket := fun s => do
  let t ← Token.bounded src "bracket-specifier" s
  if src.charAt t.start ≠ some '[' then Rule.fail "bracket-specifier" (.missingChar '[') t.start
  else if t.length < 2 ∨ src.charAt (t.stop - 1) ≠ some ']' then
    Rule.fail "bracket-specifier" (.missingChar ']') (t.stop - 1)
  else if t.length = 2 then .ok .flatten
  else if src.charAt (t.start + 1) = some '?' then
    (nested ⟨t.start + 2, t.stop - 1⟩).map .filter
  else bracketContent src t.inner

/-- An expression and square brackets. -/
def indexedLeft : Rule Expr := fun s => do
  let t ← Token.bounded src "index-expression with lhs-expression" s
  match Rule.firstSplit t (src.findAll t.inner ['[']) 0 nested (bracket src nested) with
  | some (l, b) => .ok (.indexOf l b)
  | none =>
    Rule.fail "index-expression with lhs-expression"
      (.noSplit "index-expression with lhs-expression") t.start

/-- Square brackets, with or without an expression before them. -/
def indexed : Rule Expr := fun s => do
  let t ← Token.bounded src "index-expression" s
  Rule.oneOf "index-expression"
    [indexedLeft src nested, fun s => (bracket src nested s).map .index] t

/-! ### All of them -/

/-- A selector as an expression. -/
def alone (rule : Rule Selector) : Rule Expr := fun s => (rule s).map .selector

/-- The forms, in the order in which they are tried. -/
def all : List (Rule Expr) :=
  [dotted src nested,
    indexed src nested,
    comparison src nested,
    joined src nested "or-expression" "||" .or,
    alone (identifier src),
    joined src nested "and-expression" "&&" .and,
    negated src nested,
    parenthesised src nested,
    alone (star src),
    alone (listOf src nested),
    alone (hashOf src nested),
    fun s => (Token.literal src s).map .literal,
    alone (call src nested),
    joined src nested "pipe-expression" "|" .pipe,
    fun s => (Token.rawString src s).map .raw,
    mark src "current-node" '@' .current]

end Form
end PathQuery
