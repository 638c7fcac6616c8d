/-
# The parts of an expression that hold no other expression

Names, quoted names, raw strings, numbers, literals and single characters. Each
takes the spaces off its range and reads what is left as a whole.

A quoted name and a raw string go through their text from the left, an escape at
a time. In a quoted name an escaped code point is checked but kept as it is
written; in a raw string a backslash before any character but a single quote or
a backslash stands for itself. A literal holds a JSON text in which each backtick
comes after a backslash that belongs to it.

Key definitions: `Token.bounded`, `Token.single`, `Token.name`,
`Token.quotedName`, `Token.identifier`, `Token.rawString`, `Token.number`,
`Token.literal`, `Token.decodeQuoted`, `Token.decodeRaw`, `Token.decodeLiteral`.
-/
import PathQuery.Rule
import PathQuery.Json.Reader

namespace PathQuery
namespace Token

variable (src : Source)

/-- The range without the spaces at its ends, which has to hold something. -/
def bounded (rule : String) (s : Span) : Except Failure Span :=
  if s.start < s.stop then .ok (src.trim s) else Rule.fail rule .emptyRange s.start

/-- A character and nothing else. -/
def single (rule : String) (c : Char) : Rule Unit := fun s => do
  let t ← bounded src rule s
  if src.charAt t.start ≠ some c then Rule.fail rule (.missingChar c) t.start
  else if t.length ≠ 1 then Rule.fail rule .unexpectedChar (t.start + 1)
  else .ok ()

/-! ### Names -/

/-- A name without quotes. -/
def name : Rule String := fun s => do
  let t ← bounded src "unquoted-string" s
  if (src.charAt t.start).any CharClass.isNameStart then
    match (src.slice t).findIdx? (fun c => !CharClass.isNameChar c) with
    | some i => Rule.fail "unquoted-string" .nameChar (t.start + i)
    | none => .ok (src.text t)
  else Rule.fail "unquoted-string" .nameStart t.start

/-- The text that stands between the quotes of a name, from a position on. -/
def decodeQuoted : List Char → (position : Nat) → Except Failure (List Char)
  | [], _ => .ok []
  | c :: rest, position =>
    if c = '\\' then
      match rest with
      | [] => Rule.fail "quoted-string" .quotedEscape position
      | x :: rest =>
        if x = 'u' then
          match rest with
          | x1 :: x2 :: x3 :: x4 :: rest =>
            if [x1, x2, x3, x4].all CharClass.isHexDigit then
              (decodeQuoted rest (position + 6)).map ([c, x, x1, x2, x3, x4] ++ ·)
            else Rule.fail "quoted-string" .unicodeEscape position
          | _ => Rule.fail "quoted-string" .unicodeEscape position
        else
          match Quoted.unescapeLetter? x with
          | some y => (decodeQuoted rest (position + 2)).map (y :: ·)
          | none => Rule.fail "quoted-string" .quotedEscape position
    else if CharClass.isUnescaped c then (decodeQuoted rest (position + 1)).map (c :: ·)
    else Rule.fail "quoted-string" .quotedChar position

/-- A name between double quotes, of one character or more. -/
def quotedName : Rule String := fun s => do
  let t ← bounded src "quoted-string" s
  if src.charAt t.start ≠ some '"' then Rule.fail "quoted-string" (.missingChar '"') t.start
  else if t.length < 3 ∨ src.charAt (t.stop - 1) ≠ some '"' then
    Rule.fail "quoted-string" (.missingChar '"') (t.stop - 1)
  else (decodeQuoted (src.slice t.inner) (t.start + 1)).map String.ofList

/-- A name, with or without quotes. -/
def identifier : Rule String := Rule.oneOf "identifier" [name src, quotedName src]

/-! ### Raw strings -/

/-- The text that stands between single quotes, from a position on. -/
def decodeRaw : List Char → (position : Nat) → Except Failure (List Char)
  | [], _ => .ok []
  | c :: rest, position =>
    if c = '\\' then
      match rest with
      | [] => Rule.fail "raw-string" .rawEscape position
      | x :: rest =>
        if x = '\'' ∨ x = '\\' then (decodeRaw rest (position + 2)).map (x :: ·)
        else if CharClass.isRaw x then (decodeRaw rest (position + 2)).map ([c, x] ++ ·)
        else Rule.fail "raw-string" .rawEscape position
    else if CharClass.isRaw c then (decodeRaw rest (position + 1)).map (c :: ·)
    else Rule.fail "raw-string" .rawChar position

/-- A text between single quotes. -/
def rawString : Rule String := fun s => do
  let t ← bounded src "raw-string" s
  if t.length < 2 then Rule.fail "raw-string" .rawLength t.start
  else if src.charAt t.start ≠ some '\'' then Rule.fail "raw-string" .missingQuote t.start
  else if src.charAt (t.stop - 1) ≠ some '\'' then Rule.fail "raw-string" .missingQuote (t.stop - 1)
  else (decodeRaw (src.slice t.inner) (t.start + 1)).map String.ofList

/-! ### Numbers -/

/-- An integer of 64 bits. -/
def number : Rule Int64 := fun s => do
  let t ← bounded src "number" s
  let negative := src.charAt t.start == some '-'
  let digits := src.slice ⟨if negative then t.start + 1 else t.start, t.stop⟩
  if digits.isEmpty ∨ ¬ digits.all Char.isDigit then Rule.fail "number" (.missing "number") t.start
  else
    let size : Int := CharClass.natOfDigits digits
    let n := if negative then -size else size
    if Int64.minValue.toInt ≤ n ∧ n ≤ Int64.maxValue.toInt then .ok (Int64.ofInt n)
    else Rule.fail "number" .numberRange t.start

/-! ### Literals -/

/-- The character around a literal. -/
def backtick : Char := '\x60'

/-- The text that stands between backticks, unless a backtick in it stands alone. -/
def decodeLiteral : List Char → Option (List Char)
  | [] => some []
  | c :: rest =>
    if c = '\\' then
      match rest with
      | [] => some [c]
      | x :: rest =>
        if x = backtick then (decodeLiteral rest).map (x :: ·)
        else (decodeLiteral rest).map ([c, x] ++ ·)
    else if c = backtick then none
    else (decodeLiteral rest).map (c :: ·)

/-- A JSON text between backticks. -/
def literal : Rule Json := fun s => do
  let t ← bounded src "literal" s
  if t.length < 2 then Rule.fail "literal" .literalBounds t.start
  else if src.charAt t.start ≠ some backtick then
    Rule.fail "literal" (.missingChar backtick) t.start
  else if src.charAt (t.stop - 1) ≠ some backtick then
    Rule.fail "literal" (.missingChar backtick) (t.stop - 1)
  else
    match decodeLiteral (src.slice t.inner) with
    | none => Rule.fail "literal" .bareBacktick t.start
    | some text =>
      match Json.read text with
      | .ok v => .ok v
      | .error e => Rule.fail "literal" (.json e) t.start

end Token
end PathQuery
