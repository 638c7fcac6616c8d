/-
# From expressions to pipelines

An expression becomes the operations that do to a value what it says. The other
side of an operator reads the variable of the scope it stands in. The test of a
filter and each entry of a list stand in a scope of their own, with a new
variable: a stem and a number that counts up, also past a failure.

Pipes, the current value, objects and slices have no pipeline, and the only
functions are `length` and `contains`. Scopes are noted as they are entered and
left, and a scope is left also when what stands in it fails.

Key definitions: `CompileError`, `Scope`, `ScopeEvent`, `Naming`, `Compiler`,
`inScope`, `Expr.operations`, `Expr.compile`.
-/
import PathQuery.Pipeline

namespace PathQuery

/-! ### What has no pipeline -/

/-- A construct without a pipeline. -/
inductive Construct
  | pipe
  | currentNode
  | hash
  | slice
deriving DecidableEq, Repr

/-- What a message calls a construct. -/
def Construct.name : Construct → String
  | .pipe => "pipe-expression"
  | .currentNode => "current-node"
  | .hash => "multi-select-hash"
  | .slice => "slice-expression"

/-- What is wrong with the arguments of a function. -/
inductive ArgumentFault
  /-- There are not as many as there should be. -/
  | count (expected got : Nat)
  /-- The argument at a place, counted from 1, is a reference. -/
  | reference (place : Nat)
deriving DecidableEq, Repr

/-- The words for it. -/
def ArgumentFault.message : ArgumentFault → String
  | .count expected got =>
    "expected " ++ toString expected ++ " argument" ++ (if expected = 1 then "" else "s") ++
      ", got " ++ toString got
  | .reference place => "argument " ++ toString place ++ " must be an expression"

/-- Why an expression has no pipeline. -/
inductive CompileError
  | unsupported (construct : Construct)
  | unknownFunction (name : String)
  | invalidArguments (function : String) (fault : ArgumentFault)
deriving DecidableEq, Repr

/-- The words for it. -/
def CompileError.message : CompileError → String
  | .unsupported construct => "Unsupported construct: " ++ construct.name
  | .unknownFunction name => "Unsupported function: " ++ name
  | .invalidArguments function fault => "Invalid arguments to " ++ function ++ ": " ++ fault.message

/-! ### Scopes and names -/

/-- The variable in scope, and those around it, innermost first. -/
structure Scope where
  subject : String
  enclosing : List String
deriving DecidableEq, Repr

namespace Scope

/-- The scope of a whole expression. -/
def root (subject : String) : Scope := ⟨subject, []⟩

/-- A scope inside another. -/
def push (s : Scope) (subject : String) : Scope := ⟨subject, s.subject :: s.enclosing⟩

/-- How many scopes are around this one. -/
def depth (s : Scope) : Nat := s.enclosing.length

end Scope

/-- A scope is entered or left. -/
inductive ScopeEvent
  | enter (name : String) (depth : Nat)
  | leave (name : String)
deriving DecidableEq, Repr

/-- How new variables are named, and what was noted so far. -/
structure Naming where
  stem : String
  next : Nat
  events : List ScopeEvent
deriving DecidableEq, Repr

namespace Naming

/-- Nothing named yet. -/
def start (stem : String) : Naming := ⟨stem, 0, []⟩

/-- The next new variable. -/
def fresh (n : Naming) : String := n.stem ++ toString n.next

/-- After the next new variable is taken. -/
def taken (n : Naming) : Naming := { n with next := n.next + 1 }

/-- After an event. -/
def note (n : Naming) (e : ScopeEvent) : Naming := { n with events := n.events ++ [e] }

end Naming

/-- A result or an error, and the naming after it in either case. -/
abbrev Compiler := ExceptT CompileError (StateM Naming)

/-- Does something in a new scope, which is left whatever the result. -/
def inScope {α : Type} (s : Scope) (body : Scope → Compiler α) : Compiler α := fun n =>
  let inner := s.push n.fresh
  let (result, n) := body inner (n.taken.note (.enter inner.subject inner.depth))
  (result, n.note (.leave inner.subject))

/-! ### Operations -/

/-- The fault of arguments that are not `expected` values. -/
def argumentFault (expected : Nat) (arguments : List Argument) : ArgumentFault :=
  if arguments.length ≠ expected then .count expected arguments.length
  else
    .reference (1 + arguments.findIdx fun a =>
      match a with
      | .reference _ => true
      | .value _ => false)

mutual

/-- The operations of an expression in a scope. -/
def Expr.operations (s : Scope) : Expr → Compiler (List Operation)
  | .selector sel => sel.operations s
  | .dot left sel => do
    let ops ← left.operations s
    let more ← sel.operations s
    return ops ++ more
  | .index b => b.operations s
  | .indexOf left b => do
    let ops ← left.operations s
    let more ← b.operations s
    return ops ++ more
  | .binary (.compare c) left right => do
    let ops ← left.operations s
    let other ← right.operations s
    return ops ++ [.compare c (.mk s.subject other)]
  | .binary .or left right => do
    let ops ← left.operations s
    let other ← right.operations s
    return ops ++ [.or (.mk s.subject other)]
  | .binary .and left right => do
    let ops ← left.operations s
    let other ← right.operations s
    return ops ++ [.and (.mk s.subject other)]
  | .binary .pipe _ _ => throw (.unsupported .pipe)
  | .not e => do
    let ops ← e.operations s
    return [.constantOf (.mk s.subject (ops ++ [.not]))]
  | .paren e => e.operations s
  | .literal v => return [.constant (Value.ofJson v)]
  | .raw text => return [.constant (.string text)]
  | .current => throw (.unsupported .currentNode)

/-- The operations of a selector in a scope. -/
def Selector.operations (s : Scope) : Selector → Compiler (List Operation)
  | .identifier name => return [.field name]
  | .star => return [.wildcard]
  | .list es => do
    let branches ← Expr.branches s es
    return [.multiSelect branches]
  | .hash _ => throw (.unsupported .hash)
  | .call name arguments =>
    if name = "length" then
      match arguments with
      | [.value e] => do
        let ops ← e.operations s
        return ops ++ [.length]
      | _ => throw (.invalidArguments name (argumentFault 1 arguments))
    else if name = "contains" then
      match arguments with
      | [.value e, .value f] => do
        let ops ← e.operations s
        let needle ← f.operations s
        return ops ++ [.contains (.mk s.subject needle)]
      | _ => throw (.invalidArguments name (argumentFault 2 arguments))
    else throw (.unknownFunction name)

/-- The operations of a bracket in a scope. -/
def Bracket.operations (s : Scope) : Bracket → Compiler (List Operation)
  | .flatten => return [.flatten]
  | .number n => return [.index n]
  | .star => return [.wildcard]
  | .slice _ => throw (.unsupported .slice)
  | .filter e => do
    let predicate ← inScope s fun inner => do
      let ops ← e.operations inner
      return Pipeline.mk inner.subject ops
    return [.filter predicate]

/-- The pipelines of the entries of a list, each in a scope of its own. -/
def Expr.branches (s : Scope) : List Expr → Compiler (List Pipeline)
  | [] => return []
  | e :: es => do
    let branch ← inScope s fun inner => do
      let ops ← e.operations inner
      return Pipeline.mk inner.subject ops
    let branches ← Expr.branches s es
    return branch :: branches

end

/-- The pipeline of an expression that reads a variable. -/
def Expr.compile (e : Expr) (subject : String) : Compiler Pipeline := do
  let ops ← e.operations (.root subject)
  return .mk subject ops

end PathQuery
