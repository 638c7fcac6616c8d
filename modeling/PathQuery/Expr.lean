/-
# Path expressions

The tree of a path expression. A selector names what to take from a value: a
member, all members, or a new list, object or function result made from it. It
stands alone or after a dot. A bracket takes from a list, and stands alone or
after an expression. Operators join two expressions; parentheses are kept.

Key definitions: `Comparator`, `Operator`, `Slice`, `Expr`, `Selector`,
`Bracket`, `Entry`, `Argument`, `Expr.same`.
-/
import PathQuery.Json.Reader

namespace PathQuery

/-! ### Operators -/

/-- A comparison, in the order in which a text is searched for them: symbols of two
characters before the symbols that they begin with. -/
inductive Comparator
  | le
  | eq
  | ge
  | ne
  | lt
  | gt
deriving DecidableEq, Repr

namespace Comparator

/-- All comparisons, in the order of the search. -/
def all : List Comparator := [.le, .eq, .ge, .ne, .lt, .gt]

/-- How a comparison is written. -/
def symbol : Comparator → String
  | .le => "<="
  | .eq => "=="
  | .ge => ">="
  | .ne => "!="
  | .lt => "<"
  | .gt => ">"

/-- The comparison that is written so. -/
def ofSymbol? (symbol : String) : Option Comparator := all.find? (·.symbol == symbol)

theorem ofSymbol?_symbol (c : Comparator) : ofSymbol? c.symbol = some c := by cases c <;> rfl

end Comparator

/-- What joins two expressions. -/
inductive Operator
  | compare (c : Comparator)
  | or
  | and
  | pipe
deriving DecidableEq, Repr

/-- The bounds of a slice. A bound that is left out is none, not 0. -/
structure Slice where
  start : Option Int64
  stop : Option Int64
  step : Option Int64
deriving DecidableEq

/-! ### Trees -/

mutual

/-- A path expression. -/
inductive Expr
  /-- A selector on its own. -/
  | selector (s : Selector)
  /-- An expression, a dot and a selector. -/
  | dot (left : Expr) (right : Selector)
  /-- A bracket on its own. -/
  | index (b : Bracket)
  /-- An expression and a bracket. -/
  | indexOf (left : Expr) (b : Bracket)
  /-- Two expressions and what joins them. -/
  | binary (op : Operator) (left right : Expr)
  /-- An exclamation mark and an expression. -/
  | not (operand : Expr)
  /-- An expression in parentheses. -/
  | paren (body : Expr)
  /-- A JSON text between backticks. -/
  | literal (value : Json)
  /-- A text between single quotes. -/
  | raw (text : String)
  /-- The current value. -/
  | current

/-- What is taken from a value. -/
inductive Selector
  /-- The member of a name. -/
  | identifier (name : String)
  /-- Every member. -/
  | star
  /-- The list of what the expressions give. -/
  | list (items : List Expr)
  /-- The object of what the expressions give. -/
  | hash (entries : List Entry)
  /-- The result of a function. -/
  | call (name : String) (arguments : List Argument)

/-- What stands between square brackets. -/
inductive Bracket
  /-- Nothing: one level of lists is merged. -/
  | flatten
  /-- The element at a place. -/
  | number (n : Int64)
  /-- Every element. -/
  | star
  /-- The elements between bounds. -/
  | slice (s : Slice)
  /-- The elements for which an expression holds. -/
  | filter (predicate : Expr)

/-- A name and what it stands for. -/
inductive Entry
  | mk (key : String) (value : Expr)

/-- What a function is given: a value, or an expression to apply. -/
inductive Argument
  | value (e : Expr)
  | reference (e : Expr)

end

/-! ### Equality

Two trees are the same if they are built alike, with literals that say the same. -/

mutual

/-- Whether two expressions are the same. -/
def Expr.same : Expr → Expr → Bool
  | .selector s, .selector t => s.same t
  | .dot l s, .dot m t => l.same m && s.same t
  | .index b, .index c => b.same c
  | .indexOf l b, .indexOf m c => l.same m && b.same c
  | .binary op l r, .binary oq m s => op == oq && l.same m && r.same s
  | .not e, .not f => e.same f
  | .paren e, .paren f => e.same f
  | .literal v, .literal w => Json.same v w
  | .raw s, .raw t => s == t
  | .current, .current => true
  | _, _ => false

/-- Whether two selectors are the same. -/
def Selector.same : Selector → Selector → Bool
  | .identifier n, .identifier m => n == m
  | .star, .star => true
  | .list es, .list fs => Expr.sameAll es fs
  | .hash es, .hash fs => Entry.sameAll es fs
  | .call n as, .call m bs => n == m && Argument.sameAll as bs
  | _, _ => false

/-- Whether two brackets are the same. -/
def Bracket.same : Bracket → Bracket → Bool
  | .flatten, .flatten => true
  | .number n, .number m => n == m
  | .star, .star => true
  | .slice s, .slice t => s == t
  | .filter e, .filter f => e.same f
  | _, _ => false

/-- Whether two entries are the same. -/
def Entry.same : Entry → Entry → Bool
  | .mk k e, .mk l f => k == l && e.same f

/-- Whether two arguments are the same. -/
def Argument.same : Argument → Argument → Bool
  | .value e, .value f => e.same f
  | .reference e, .reference f => e.same f
  | _, _ => false

/-- Whether two lists of expressions are the same, place by place. -/
def Expr.sameAll : List Expr → List Expr → Bool
  | [], [] => true
  | e :: es, f :: fs => e.same f && Expr.sameAll es fs
  | _, _ => false

/-- Whether two lists of entries are the same, place by place. -/
def Entry.sameAll : List Entry → List Entry → Bool
  | [], [] => true
  | e :: es, f :: fs => e.same f && Entry.sameAll es fs
  | _, _ => false

/-- Whether two lists of arguments are the same, place by place. -/
def Argument.sameAll : List Argument → List Argument → Bool
  | [], [] => true
  | a :: as, b :: bs => a.same b && Argument.sameAll as bs
  | _, _ => false

end

end PathQuery
