/-
# Rules on plain text

Rules that look at the text of a range and nothing else: all of it, all of it if
there is any, letters, digits, text without a comma, and text with as many
opening as closing parentheses. They are enough to try the ways in which rules
are put together without a grammar.

Key definitions: `Rule.Plain`, `Rule.Plain.ofName?`, `Rule.Plain.rule`,
`Rule.plain`.
-/
import PathQuery.Rule

namespace PathQuery
namespace Rule

/-- A test of the text of a range. -/
inductive Plain
  | any
  | nonempty
  | letters
  | digits
  | noComma
  | balanced
deriving DecidableEq, Repr

namespace Plain

/-- The test of a name. -/
def ofName? (name : String) : Option Plain :=
  if name = "any" then some .any
  else if name = "nonempty" then some .nonempty
  else if name = "letters" then some .letters
  else if name = "digits" then some .digits
  else if name = "no_comma" then some .noComma
  else if name = "balanced" then some .balanced
  else none

/-- The text that a test accepts. Letters and digits are looked for without the
spaces at the ends of the range. -/
def accept (src : Source) (s : Span) : Plain → Option (List Char)
  | .any => some (src.slice s)
  | .nonempty => if s.start < s.stop then some (src.slice s) else none
  | .letters =>
    let text := src.slice (src.trim s)
    if !text.isEmpty && text.all Char.isAlpha then some text else none
  | .digits =>
    let text := src.slice (src.trim s)
    if !text.isEmpty && text.all Char.isDigit then some text else none
  | .noComma =>
    let text := src.slice s
    if !text.isEmpty && text.all (· ≠ ',') then some text else none
  | .balanced =>
    let text := src.slice s
    if s.start < s.stop ∧ text.count '(' = text.count ')' then some text else none

end Plain

/-- The rule of a test. A name without a test is a rule that never matches. -/
def plain (src : Source) (name : String) : Rule String := fun s =>
  match (Plain.ofName? name).bind (Plain.accept src s) with
  | some text => .ok (String.ofList text)
  | none => fail "rule" (.missing name) s.start

end Rule
end PathQuery
