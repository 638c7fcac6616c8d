/-
# Reading a JSON text

A cursor stands between what was read of a text and what is left of it, and
counts the bytes before it. A reader takes something off the front and gives the
cursor behind it, or refuses. A refusal stands behind the byte that it refuses,
or at the end if there is none.

Key definitions: `Cursor`, `Cursor.advance`, `Cursor.skipBlanks`, `Refusal`,
`Reader`, `refuse`, `word`, `sequenceOf`.
Key theorems: `Cursor.skipBlanks_rest`.
-/
import PathQuery.Json.Error

namespace PathQuery
namespace Json

/-- What is left of a text, and the number of bytes before it. -/
structure Cursor where
  rest : List Char
  offset : Nat
deriving DecidableEq, Repr

/-- The number of bytes of a text. -/
def byteLength : List Char → Nat
  | [] => 0
  | c :: rest => c.utf8Size + byteLength rest

/-- A fault and the number of bytes before the place where it shows. -/
structure Refusal where
  fault : Fault
  offset : Nat
deriving DecidableEq, Repr

/-- What a reader takes off the front of a text, with the cursor behind it. -/
abbrev Reader (α : Type) := Cursor → Except Refusal (α × Cursor)

/-! ### Single steps -/

/-- Space, line feed, tab and carriage return may stand between the parts of a text. -/
def isBlank (c : Char) : Bool := c == ' ' || c == '\n' || c == '\t' || c == '\r'

namespace Cursor

/-- At the start of a text. -/
def start (text : List Char) : Cursor := ⟨text, 0⟩

/-- Behind the next character. -/
def advance (c : Cursor) : Cursor :=
  match c.rest with
  | [] => c
  | x :: rest => ⟨rest, c.offset + x.utf8Size⟩

/-- Behind the blanks of a list of characters, which `offset` bytes precede. -/
def afterBlanks : List Char → (offset : Nat) → Cursor
  | [], offset => ⟨[], offset⟩
  | x :: rest, offset => if isBlank x then afterBlanks rest (offset + 1) else ⟨x :: rest, offset⟩

/-- Behind the blanks that come next. -/
def skipBlanks (c : Cursor) : Cursor := afterBlanks c.rest c.offset

theorem afterBlanks_rest : ∀ (text : List Char) (offset : Nat),
    (afterBlanks text offset).rest = text.dropWhile isBlank
  | [], _ => rfl
  | x :: rest, offset => by
    unfold afterBlanks
    rw [List.dropWhile_cons]
    split
    · exact afterBlanks_rest rest (offset + 1)
    · rfl

/-- Skipping blanks drops them and nothing else. -/
theorem skipBlanks_rest (c : Cursor) : c.skipBlanks.rest = c.rest.dropWhile isBlank :=
  afterBlanks_rest c.rest c.offset

end Cursor

/-- Refuses the next byte, or the end of the text. -/
def refuse {α : Type} (fault : Fault) (c : Cursor) : Except Refusal α :=
  .error ⟨fault, if c.rest.isEmpty then c.offset else c.offset + 1⟩

/-! ### Words and sequences -/

/-- The characters of a word. -/
def word : List Char → Reader Unit
  | [], c => .ok ((), c)
  | w :: ws, c =>
    match c.rest with
    | [] => refuse .endInValue c
    | x :: _ => if x = w then word ws c.advance else refuse .noWord c

/-- What tells the kinds of sequences apart. -/
structure Brackets where
  /-- The character that ends the sequence. -/
  closing : Char
  /-- The fault of a text that ends inside. -/
  atEnd : Fault
  /-- The fault of an entry that neither a comma nor the end follows. -/
  noSeparator : Fault
  /-- Whether an entry may begin with a character. -/
  begins : Char → Bool
  /-- The fault of an entry that begins otherwise. -/
  noEntry : Fault

/-- The entries from here to the end of a sequence, at most `room` of them. -/
def entriesOf {α : Type} (b : Brackets) (entry : Reader α) : (room : Nat) → Reader (List α)
  | 0, c => refuse b.atEnd c
  | room + 1, c => do
    let (a, c) ← entry c
    let c := c.skipBlanks
    match c.rest with
    | [] => refuse b.atEnd c
    | x :: _ =>
      if x = b.closing then .ok ([a], c.advance)
      else if x = ',' then
        let c := c.advance.skipBlanks
        match c.rest with
        | [] => refuse .endInValue c
        | y :: _ =>
          if y = b.closing then refuse .trailingComma c
          else if b.begins y then do
            let (as, c) ← entriesOf b entry room c
            .ok (a :: as, c)
          else refuse b.noEntry c
      else refuse b.noSeparator c

/-- A sequence of at most `room` entries, from behind its opening bracket. -/
def sequenceOf {α : Type} (b : Brackets) (room : Nat) (entry : Reader α) : Reader (List α) := fun c =>
  let c := c.skipBlanks
  match c.rest with
  | [] => refuse b.atEnd c
  | x :: _ =>
    if x = b.closing then .ok ([], c.advance)
    else if b.begins x then entriesOf b entry room c
    else refuse b.noEntry c

end Json
end PathQuery
