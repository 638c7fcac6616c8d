/-
# Why a range is not what a rule expects

A rule that does not match a range fails at a position, for a reason. The
grammar has the reasons listed here, and a rule of another kind may fail in any
words (`Reason.other`). A rule that tries several others and sees them all fail
keeps their failures, so a failure is a tree of everything that was tried.
`causes` lists the tree, `diagnostic` prints it, and `message` is the one line
for a caller.

Key definitions: `Reason`, `Reason.message`, `Failure`, `Failure.message`,
`Failure.causes`, `Failure.diagnostic`, `Failure.same`.
Key theorems: `Failure.causes_eq`, `Failure.mem_causes`.
-/
import PathQuery.Json.Error

namespace PathQuery

/-- The cause of a failure. -/
inductive Reason
  /-- The range holds nothing. -/
  | emptyRange
  /-- The whole text is empty. -/
  | emptyText (what : String)
  /-- Expressions are nested deeper than the limit. -/
  | tooDeep (limit : Nat)
  /-- Every alternative of the rule failed. -/
  | exhausted (rule : String)
  /-- What the rule looks for is not there. -/
  | missing (what : String)
  /-- A character the rule needs is not there. -/
  | missingChar (c : Char)
  /-- A single quote is not there. -/
  | missingQuote
  /-- No cut of the range leaves two sides that match. -/
  | noSplit (form : String)
  /-- Something follows where the rule should end. -/
  | unexpectedChar
  /-- Nothing before a comma is a first entry. -/
  | noFirstEntry
  /-- The commas do not tell where the entries end. -/
  | ambiguousSeparation
  /-- What stands before the parenthesis is no name. -/
  | functionName (fault : Reason)
  /-- The literal is too short for its two quotes. -/
  | literalBounds
  /-- A backtick without a backslash inside a literal. -/
  | bareBacktick
  /-- What the literal holds is no JSON text. -/
  | json (error : Json.Error)
  /-- The number does not fit 64 bits. -/
  | numberRange
  /-- A name that does not begin like one. -/
  | nameStart
  /-- A character that no name holds. -/
  | nameChar
  /-- A character that a quoted name holds only escaped. -/
  | quotedChar
  /-- A backslash in a quoted name with nothing that it may escape. -/
  | quotedEscape
  /-- An escaped code point without four hexadecimal digits. -/
  | unicodeEscape
  /-- The raw string is too short for its two quotes. -/
  | rawLength
  /-- A character that a raw string holds only escaped. -/
  | rawChar
  /-- A backslash in a raw string with nothing that it may escape. -/
  | rawEscape
  /-- A cause that the grammar does not know, in words of its own. -/
  | other (words : String)
deriving DecidableEq, Repr

/-- The words for a cause. -/
def Reason.message : Reason → String
  | .emptyRange => "Empty range"
  | .emptyText what => "Empty " ++ what
  | .tooDeep limit => "Maximum nesting depth of " ++ toString limit ++ " exceeded"
  | .exhausted rule => "Unable to parse " ++ rule
  | .missing what => "Expected " ++ what
  | .missingChar c => "Expected '" ++ String.singleton c ++ "'"
  | .missingQuote => "Expected \"'\""
  | .noSplit form => "Invalid " ++ form
  | .unexpectedChar => "Unexpected character"
  | .noFirstEntry => "Invalid value"
  | .ambiguousSeparation => "Ambiguous separation"
  | .functionName fault => "Expected valid function name (" ++ fault.message ++ ")"
  | .literalBounds => "Invalid bounds"
  | .bareBacktick => "Unescaped '`'"
  | .json error => "Invalid JSON: " ++ error.message
  | .numberRange => "Number out of range"
  | .nameStart => "Unquoted identifiers must start with [A-Za-z_]"
  | .nameChar => "Invalid character in unquoted identifier"
  | .quotedChar => "Invalid character in quoted identifier"
  | .quotedEscape => "Invalid escape sequence"
  | .unicodeEscape => "Invalid unicode escape"
  | .rawLength => "Invalid length"
  | .rawChar => "Invalid character in raw string"
  | .rawEscape => "Invalid escape in raw string"
  | .other words => words

/-- A rule that did not match, with the failures of all it tried. -/
structure Failure where
  rule : String
  reason : Reason
  position : Nat
  alternatives : List Failure

namespace Failure

/-- A failure with nothing else tried. -/
def leaf (rule : String) (reason : Reason) (position : Nat) : Failure := ⟨rule, reason, position, []⟩

/-- The failure of a rule whose alternatives all failed. -/
def exhausted (rule : String) (position : Nat) (alternatives : List Failure) : Failure :=
  ⟨rule, .exhausted rule, position, alternatives⟩

/-- The one line for a caller. -/
def message (f : Failure) : String :=
  "Unable to parse input at character " ++ toString f.position ++ ": " ++ f.reason.message

/-! ### The tree -/

mutual

/-- The failure and all below it, each before what was tried for it. -/
def causes : Failure → List Failure
  | ⟨rule, reason, position, alternatives⟩ =>
    ⟨rule, reason, position, alternatives⟩ :: causesAll alternatives

/-- The causes of several failures, in order. -/
def causesAll : List Failure → List Failure
  | [] => []
  | f :: rest => causes f ++ causesAll rest

end

theorem causesAll_eq_flatMap : ∀ fs : List Failure, causesAll fs = fs.flatMap causes
  | [] => rfl
  | f :: rest => by rw [causesAll, causesAll_eq_flatMap rest, List.flatMap_cons]

theorem causes_eq (f : Failure) : f.causes = f :: f.alternatives.flatMap causes := by
  rw [← causesAll_eq_flatMap]
  cases f
  rfl

/-- A cause is the failure itself or one of an alternative. -/
theorem mem_causes {f g : Failure} : g ∈ f.causes ↔ g = f ∨ ∃ a ∈ f.alternatives, g ∈ a.causes := by
  rw [causes_eq, List.mem_cons, List.mem_flatMap]

/-- Two spaces for each level. -/
def indent : Nat → String
  | 0 => ""
  | level + 1 => indent level ++ "  "

mutual

/-- The tree below a level: two lines for each failure, its alternatives one
level deeper. -/
def diagnosticAt (level : Nat) : Failure → String
  | ⟨rule, reason, position, alternatives⟩ =>
    indent level ++ "Not a " ++ rule ++ " at " ++ toString position ++ ":\n" ++
      indent level ++ "  " ++ reason.message ++ "\n" ++ diagnosticAll (level + 1) alternatives

/-- The trees of several failures, in order. -/
def diagnosticAll (level : Nat) : List Failure → String
  | [] => ""
  | f :: rest => diagnosticAt level f ++ diagnosticAll level rest

end

/-- The whole tree as text. -/
def diagnostic (f : Failure) : String := diagnosticAt 0 f

mutual

/-- Whether two failures read the same: the same rule, words and position, and
alternatives that read the same. -/
def same : Failure → Failure → Bool
  | ⟨rule, reason, position, alternatives⟩, g =>
    rule == g.rule && reason.message == g.reason.message && position == g.position &&
      sameAll alternatives g.alternatives

/-- Whether two lists of failures read the same. -/
def sameAll : List Failure → List Failure → Bool
  | [], [] => true
  | f :: fs, g :: gs => same f g && sameAll fs gs
  | _, _ => false

end

end Failure

end PathQuery
