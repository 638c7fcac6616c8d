/-
# Strings of a JSON text

A string stands between quotes. A backslash begins an escape: a letter, or `u`
and four hexadecimal digits for a code point up to U+FFFF. A code point beyond
is written as two such escapes, the halves of a surrogate pair, and no half
stands alone.

Key definitions: `Text.escape`, `Text.hex4`, `Text.chars`, `Text.read`.
-/
import PathQuery.Json.Cursor
import PathQuery.Text.Quoted

namespace PathQuery
namespace Json
namespace Text

/-- The value of a hexadecimal digit. -/
def hexValue (c : Char) : Nat :=
  if c.isDigit then c.toNat - 48 else if c.toNat < 97 then c.toNat - 55 else c.toNat - 87

/-- Four hexadecimal digits, as a number. What is there instead is refused as four
bytes, or as the end of the text if there are not so many. -/
def hex4 : Reader Nat := fun c =>
  let refused : Except Refusal (Nat × Cursor) :=
    let bytes := byteLength (c.rest.take 4)
    if bytes < 4 then .error ⟨.endInString, c.offset + bytes⟩
    else .error ⟨.badEscape, c.offset + 4⟩
  match c.rest with
  | x1 :: x2 :: x3 :: x4 :: rest =>
    if [x1, x2, x3, x4].all CharClass.isHexDigit then
      .ok (((hexValue x1 * 16 + hexValue x2) * 16 + hexValue x3) * 16 + hexValue x4,
        ⟨rest, c.offset + 4⟩)
    else refused
  | _ => refused

/-- The second half of a surrogate pair. -/
def isLowHalf (n : Nat) : Bool := 0xDC00 ≤ n && n ≤ 0xDFFF

/-- The first half of a surrogate pair. -/
def isHighHalf (n : Nat) : Bool := 0xD800 ≤ n && n ≤ 0xDBFF

/-- The next character has to be `x`. -/
def halfMark (x : Char) : Reader Unit := fun c =>
  match c.rest with
  | [] => refuse .endInString c
  | y :: _ => if y = x then .ok ((), c.advance) else refuse .cutSurrogate c

/-- A code point, from behind the `u` of its escape. -/
def codePoint : Reader Char := fun c => do
  let (n, c) ← hex4 c
  if isLowHalf n then .error ⟨.loneSurrogate, c.offset⟩
  else if isHighHalf n then do
    let (_, c) ← halfMark '\\' c
    let (_, c) ← halfMark 'u' c
    let (low, c) ← hex4 c
    if isLowHalf low then .ok (Char.ofNat (0x10000 + (n - 0xD800) * 0x400 + (low - 0xDC00)), c)
    else .error ⟨.loneSurrogate, c.offset⟩
  else .ok (Char.ofNat n, c)

/-- An escape, from behind its backslash. -/
def escape : Reader Char := fun c =>
  match c.rest with
  | [] => refuse .endInString c
  | x :: _ =>
    match Quoted.unescapeLetter? x with
    | some y => .ok (y, c.advance)
    | none => if x = 'u' then codePoint c.advance else refuse .badEscape c

/-- The characters up to the closing quote, less than `room` of them. -/
def chars : (room : Nat) → Reader (List Char)
  | 0, c => refuse .endInString c
  | room + 1, c =>
    match c.rest with
    | [] => refuse .endInString c
    | x :: _ =>
      if x = '"' then .ok ([], c.advance)
      else if x = '\\' then do
        let (y, c) ← escape c.advance
        let (ys, c) ← chars room c
        .ok (y :: ys, c)
      else if x < ' ' then refuse .rawControl c
      else do
        let (ys, c) ← chars room c.advance
        .ok (x :: ys, c)

/-- A string of less than `room` characters, from behind its opening quote. -/
def read (room : Nat) : Reader String := fun c => do
  let (cs, c) ← chars room c
  .ok (String.ofList cs, c)

end Text
end Json
end PathQuery
