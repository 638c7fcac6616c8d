/-
# Classes of characters

The characters that a name, a quoted name and a raw string may hold without an
escape. The classes of a name are ASCII only; the other two reach to the last
code point and leave out the controls below the space.

Key definitions: `CharClass.isNameStart`, `CharClass.isNameChar`,
`CharClass.isUnescaped`, `CharClass.isRaw`, `CharClass.natOfDigits`.
-/

namespace PathQuery
namespace CharClass

/-- An ASCII letter or `_`. -/
def isNameStart (c : Char) : Bool := c.isAlpha || c == '_'

/-- An ASCII letter, an ASCII digit or `_`. -/
def isNameChar (c : Char) : Bool := c.isAlphanum || c == '_'

/-- Stands for itself between double quotes: from the space on, all but `"` and
`\`. -/
def isUnescaped (c : Char) : Bool := ' ' ≤ c && c != '"' && c != '\\'

/-- Stands for itself between single quotes: from the space on, all but `'` and
`\`. -/
def isRaw (c : Char) : Bool := ' ' ≤ c && c != '\'' && c != '\\'

/-- A digit of a number in base 16, in either case. -/
def isHexDigit (c : Char) : Bool :=
  c.isDigit || ('a' ≤ c && c ≤ 'f') || ('A' ≤ c && c ≤ 'F')

/-- The value of a decimal digit. -/
def digitValue (c : Char) : Nat := c.toNat - 48

/-- The number that decimal digits write. -/
def natOfDigits (digits : List Char) : Nat := digits.foldl (fun n c => 10 * n + digitValue c) 0

/-- A control character: U+0000 to U+001F and U+007F to U+009F. -/
def isControl (c : Char) : Bool := c.toNat < 0x20 || (0x7F ≤ c.toNat && c.toNat ≤ 0x9F)

end CharClass
end PathQuery
