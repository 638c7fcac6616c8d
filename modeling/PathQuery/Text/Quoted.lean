/-
# Text between double quotes

How a string is written inside a JSON text or a rendered pipeline: the quote and
the backslash after a backslash, line feed, carriage return and tab by their
letter, any other control character by its code point in four hexadecimal
digits, and all else as it stands. A log record writes the text of an expression
with the same short escapes.

Key definitions: `Quoted.escapeChar`, `Quoted.escape`, `Quoted.quote`,
`Quoted.unescapeLetter?`, `Quoted.inspect`.
-/
import PathQuery.Text.CharClass

namespace PathQuery
namespace Quoted

/-- The digit of a number below 16, in lower case. -/
def hexDigit (n : Nat) : Char := if n < 10 then Char.ofNat (48 + n) else Char.ofNat (87 + n)

/-- The last four hexadecimal digits of a number. -/
def fourHexDigits (n : Nat) : List Char :=
  [hexDigit (n / 4096 % 16), hexDigit (n / 256 % 16), hexDigit (n / 16 % 16), hexDigit (n % 16)]

/-- What stands for a character inside quotes. -/
def escapeChar (c : Char) : List Char :=
  if c = '"' then ['\\', '"']
  else if c = '\\' then ['\\', '\\']
  else if c = '\n' then ['\\', 'n']
  else if c = '\r' then ['\\', 'r']
  else if c = '\t' then ['\\', 't']
  else if CharClass.isControl c then '\\' :: 'u' :: fourHexDigits c.toNat
  else [c]

/-- The text that stands for a string inside quotes. -/
def escape (s : String) : String := String.ofList (s.toList.flatMap escapeChar)

/-- A string between its quotes. -/
def quote (s : String) : String := "\"" ++ escape s ++ "\""

/-- What a backslash and one more character stand for. -/
def unescapeLetter? (c : Char) : Option Char :=
  if c = '"' then some '"'
  else if c = '\\' then some '\\'
  else if c = '/' then some '/'
  else if c = 'b' then some '\x08'
  else if c = 'f' then some '\x0c'
  else if c = 'n' then some '\n'
  else if c = 'r' then some '\r'
  else if c = 't' then some '\t'
  else none

/-- What stands for a character in a log record: a control character other than
the three with a letter is written by its code point between braces. -/
def inspectChar (c : Char) : List Char :=
  if c = '\x00' then ['\\', '0']
  else if CharClass.isControl c && c != '\n' && c != '\r' && c != '\t' then
    '\\' :: 'u' :: '\x7b' :: Nat.toDigits 16 c.toNat ++ ['\x7d']
  else escapeChar c

/-- A string between quotes as a log record shows it. -/
def inspect (s : String) : String := "\"" ++ String.ofList (s.toList.flatMap inspectChar) ++ "\""

end Quoted
end PathQuery
