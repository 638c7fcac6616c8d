/-
# The grammar of expressions

The grammar says what a text may be built from, with no word on which of several
ways is chosen: an expression is a selector, two expressions around an operator,
and so on. Spaces may stand at both ends of every part, and where an optional
part is left out (`Phrase.spaced`, `Phrase.noBound`, `Phrase.noArguments`).

A phrase is one level of the grammar: what may stand for the expressions inside it
is a parameter. A text derives a tree if it is a phrase whose inner expressions
derive theirs.

Key definitions: `Grammar.Part`, `Grammar.Phrase`, `Grammar.Derives`.
Key theorems: `Grammar.Phrase.nonblank`.
-/
import PathQuery.Expr.Parse

namespace PathQuery

/-- How an operator is written. -/
def Operator.symbol : Operator → String
  | .compare c => c.symbol
  | .or => "||"
  | .and => "&&"
  | .pipe => "|"

namespace Grammar

/-! ### Tokens -/

/-- Spaces and nothing else. -/
def Blank (text : List Char) : Prop := ∀ c ∈ text, c = ' '

/-- What stands between the quotes of a quoted name, and the name. -/
inductive QuotedBody : List Char → List Char → Prop
  | nil : QuotedBody [] []
  | plain {c : Char} {t s : List Char} : CharClass.isUnescaped c = true → QuotedBody t s →
      QuotedBody (c :: t) (c :: s)
  | escaped {x y : Char} {t s : List Char} : Quoted.unescapeLetter? x = some y → QuotedBody t s →
      QuotedBody ('\\' :: x :: t) (y :: s)
  | codePoint {x1 x2 x3 x4 : Char} {t s : List Char} : [x1, x2, x3, x4].all CharClass.isHexDigit = true →
      QuotedBody t s →
      QuotedBody ('\\' :: 'u' :: x1 :: x2 :: x3 :: x4 :: t) ('\\' :: 'u' :: x1 :: x2 :: x3 :: x4 :: s)

/-- What stands between the quotes of a raw string, and the string. -/
inductive RawBody : List Char → List Char → Prop
  | nil : RawBody [] []
  | plain {c : Char} {t s : List Char} : CharClass.isRaw c = true → RawBody t s → RawBody (c :: t) (c :: s)
  | escaped {x : Char} {t s : List Char} : x = '\'' ∨ x = '\\' → RawBody t s →
      RawBody ('\\' :: x :: t) (x :: s)
  | kept {x : Char} {t s : List Char} : CharClass.isRaw x = true → RawBody t s →
      RawBody ('\\' :: x :: t) ('\\' :: x :: s)

/-- What stands between the backticks of a literal, and the JSON text. -/
inductive LiteralBody : List Char → List Char → Prop
  | nil : LiteralBody [] []
  | plain {c : Char} {t s : List Char} : c ≠ '\\' → c ≠ Token.backtick → LiteralBody t s →
      LiteralBody (c :: t) (c :: s)
  | escaped {t s : List Char} : LiteralBody t s →
      LiteralBody ('\\' :: Token.backtick :: t) (Token.backtick :: s)
  | kept {x : Char} {t s : List Char} : x ≠ Token.backtick → LiteralBody t s →
      LiteralBody ('\\' :: x :: t) ('\\' :: x :: s)

/-- A sign that may be left out, digits, and the integer of 64 bits that they write. -/
def IsNumber (text : List Char) (n : Int64) : Prop :=
  ∃ digits, digits ≠ [] ∧ digits.all Char.isDigit = true ∧
    (text = digits ∧ n.toInt = CharClass.natOfDigits digits ∨
      text = '-' :: digits ∧ n.toInt = -(CharClass.natOfDigits digits : Int))

/-! ### The grammar -/

/-- What a text may stand for. -/
inductive Part
  | expression
  | selector
  | star
  | bracket
  | slice
  | bound
  | number
  | identifier
  | name
  | arguments
  | argument
  | keyValue
  /-- An expression inside another. -/
  | nested
  /-- One or more of a part, with commas between them. -/
  | sequence (part : Part)

/-- What is made of a part. -/
abbrev Part.Tree : Part → Type
  | .expression => Expr
  | .nested => Expr
  | .selector => Selector
  | .star => Unit
  | .bracket => Bracket
  | .slice => Slice
  | .bound => Option Int64
  | .number => Int64
  | .identifier => String
  | .name => String
  | .arguments => List Argument
  | .argument => Argument
  | .keyValue => Entry
  | .sequence part => List part.Tree

/-- What a text may stand for if its inner expressions are as `P` says. -/
inductive Phrase (P : List Char → Expr → Prop) : (part : Part) → List Char → part.Tree → Prop
  | nested {t : List Char} {e : Expr} : P t e → Phrase P .nested t e
  /-- Spaces at both ends. -/
  | spaced {part : Part} {a t b : List Char} {x : part.Tree} : Blank a → Blank b → Phrase P part t x →
      Phrase P part (a ++ t ++ b) x
  | one {part : Part} {t : List Char} {x : part.Tree} : Phrase P part t x → Phrase P (.sequence part) t [x]
  | more {part : Part} {t u : List Char} {x : part.Tree} {xs : List part.Tree} : Phrase P part t x →
      Phrase P (.sequence part) u xs → Phrase P (.sequence part) (t ++ ',' :: u) (x :: xs)
  -- expressions
  | dot {t u : List Char} {l : Expr} {s : Selector} : P t l → Phrase P .selector u s →
      Phrase P .expression (t ++ '.' :: u) (.dot l s)
  | indexOf {t u : List Char} {l : Expr} {b : Bracket} : P t l → Phrase P .bracket u b →
      Phrase P .expression (t ++ u) (.indexOf l b)
  | index {t : List Char} {b : Bracket} : Phrase P .bracket t b → Phrase P .expression t (.index b)
  | binary {op : Operator} {t u : List Char} {l r : Expr} : P t l →
      P u r → Phrase P .expression (t ++ op.symbol.toList ++ u) (.binary op l r)
  | not {t : List Char} {e : Expr} : P t e → Phrase P .expression ('!' :: t) (.not e)
  | paren {t : List Char} {e : Expr} : P t e →
      Phrase P .expression ('(' :: t ++ [')']) (.paren e)
  | literal {t s : List Char} {v : Json} : LiteralBody t s → Json.read s = .ok v →
      Phrase P .expression (Token.backtick :: t ++ [Token.backtick]) (.literal v)
  | raw {t s : List Char} : RawBody t s →
      Phrase P .expression ('\'' :: t ++ ['\'']) (.raw (String.ofList s))
  | current : Phrase P .expression ['@'] .current
  | alone {t : List Char} {s : Selector} : Phrase P .selector t s → Phrase P .expression t (.selector s)
  -- selectors
  | named {t : List Char} {name : String} : Phrase P .identifier t name →
      Phrase P .selector t (.identifier name)
  | all {t : List Char} : Phrase P .star t () → Phrase P .selector t .star
  | list {t : List Char} {es : List Expr} : Phrase P (.sequence .nested) t es →
      Phrase P .selector ('[' :: t ++ [']']) (.list es)
  | hash {t : List Char} {es : List Entry} : Phrase P (.sequence .keyValue) t es →
      Phrase P .selector ('\x7b' :: t ++ ['\x7d']) (.hash es)
  | call {t u : List Char} {f : String} {as : List Argument} : Phrase P .name t f →
      Phrase P .arguments u as → Phrase P .selector (t ++ u) (.call f as)
  -- their parts
  | star : Phrase P .star ['*'] ()
  | noArguments {t : List Char} : Blank t → Phrase P .arguments ('(' :: t ++ [')']) []
  | arguments {t : List Char} {as : List Argument} : Phrase P (.sequence .argument) t as →
      Phrase P .arguments ('(' :: t ++ [')']) as
  | value {t : List Char} {e : Expr} : P t e → Phrase P .argument t (.value e)
  | reference {t : List Char} {e : Expr} : P t e →
      Phrase P .argument ('&' :: t) (.reference e)
  | keyValue {t u : List Char} {k : String} {e : Expr} : Phrase P .identifier t k →
      P u e → Phrase P .keyValue (t ++ ':' :: u) (.mk k e)
  -- brackets
  | flatten : Phrase P .bracket ['[', ']'] .flatten
  | place {t : List Char} {n : Int64} : Phrase P .number t n →
      Phrase P .bracket ('[' :: t ++ [']']) (.number n)
  | every {t : List Char} : Phrase P .star t () → Phrase P .bracket ('[' :: t ++ [']']) .star
  | slice {t : List Char} {s : Slice} : Phrase P .slice t s →
      Phrase P .bracket ('[' :: t ++ [']']) (.slice s)
  | filter {t : List Char} {e : Expr} : P t e →
      Phrase P .bracket ('[' :: '?' :: t ++ [']']) (.filter e)
  | twoBounds {t u : List Char} {a b : Option Int64} : Phrase P .bound t a → Phrase P .bound u b →
      Phrase P .slice (t ++ ':' :: u) ⟨a, b, none⟩
  | threeBounds {t u v : List Char} {a b c : Option Int64} : Phrase P .bound t a → Phrase P .bound u b →
      Phrase P .bound v c → Phrase P .slice (t ++ ':' :: (u ++ ':' :: v)) ⟨a, b, c⟩
  | noBound {t : List Char} : Blank t → Phrase P .bound t none
  | bound {t : List Char} {n : Int64} : Phrase P .number t n → Phrase P .bound t (some n)
  | number {t : List Char} {n : Int64} : IsNumber t n → Phrase P .number t n
  -- names
  | unquoted {t : List Char} {name : String} : Phrase P .name t name → Phrase P .identifier t name
  | quoted {t s : List Char} : t ≠ [] → QuotedBody t s →
      Phrase P .identifier ('"' :: t ++ ['"']) (String.ofList s)
  | name {c : Char} {t : List Char} : CharClass.isNameStart c = true → t.all CharClass.isNameChar = true →
      Phrase P .name (c :: t) (String.ofList (c :: t))

/-- A text derives a tree. -/
inductive Derives : List Char → Expr → Prop
  | intro {t : List Char} {e : Expr} : Phrase Derives .expression t e → Derives t e

/-! ### Phrases hold something -/

/-- The parts that are never left out. -/
def Part.Solid : Part → Prop
  | .bound => False
  | .sequence part => part.Solid
  | _ => True

/-- A part that is not left out is more than spaces. -/
theorem Phrase.nonblank {P : List Char → Expr → Prop} (hP : ∀ t e, P t e → ∃ c ∈ t, c ≠ ' ') {part : Part}
    {t : List Char} {x : part.Tree} (h : Phrase P part t x) (hsolid : part.Solid) : ∃ c ∈ t, c ≠ ' ' := by
  induction h with
  | nested h => exact hP _ _ h
  | spaced _ _ _ ih =>
    obtain ⟨c, hc, hne⟩ := ih hsolid
    exact ⟨c, by simp [hc], hne⟩
  | one _ ih => exact ih hsolid
  | more => exact ⟨',', by simp, by decide⟩
  | dot => exact ⟨'.', by simp, by decide⟩
  | indexOf h =>
    obtain ⟨c, hc, hne⟩ := hP _ _ h
    exact ⟨c, by simp [hc], hne⟩
  | index _ ih => exact ih trivial
  | binary h =>
    obtain ⟨c, hc, hne⟩ := hP _ _ h
    exact ⟨c, by simp [hc], hne⟩
  | not => exact ⟨'!', by simp, by decide⟩
  | paren => exact ⟨'(', by simp, by decide⟩
  | literal => exact ⟨Token.backtick, by simp, by decide⟩
  | raw => exact ⟨'\'', by simp, by decide⟩
  | current => exact ⟨'@', by simp, by decide⟩
  | alone _ ih => exact ih trivial
  | named _ ih => exact ih trivial
  | all _ ih => exact ih trivial
  | list => exact ⟨'[', by simp, by decide⟩
  | hash => exact ⟨'\x7b', by simp, by decide⟩
  | call _ _ ih =>
    obtain ⟨c, hc, hne⟩ := ih trivial
    exact ⟨c, by simp [hc], hne⟩
  | star => exact ⟨'*', by simp, by decide⟩
  | noArguments => exact ⟨'(', by simp, by decide⟩
  | arguments => exact ⟨'(', by simp, by decide⟩
  | value h => exact hP _ _ h
  | reference => exact ⟨'&', by simp, by decide⟩
  | keyValue => exact ⟨':', by simp, by decide⟩
  | flatten => exact ⟨'[', by simp, by decide⟩
  | place => exact ⟨'[', by simp, by decide⟩
  | every => exact ⟨'[', by simp, by decide⟩
  | slice => exact ⟨'[', by simp, by decide⟩
  | filter => exact ⟨'[', by simp, by decide⟩
  | twoBounds => exact ⟨':', by simp, by decide⟩
  | threeBounds => exact ⟨':', by simp, by decide⟩
  | noBound => exact hsolid.elim
  | bound => exact hsolid.elim
  | number h =>
    obtain ⟨digits, hne, hall, ⟨rfl, -⟩ | ⟨rfl, -⟩⟩ := h
    · obtain ⟨c, hc⟩ := List.exists_mem_of_ne_nil _ hne
      refine ⟨c, hc, ?_⟩
      rintro rfl
      exact absurd (List.all_eq_true.mp hall ' ' hc) (by decide)
    · exact ⟨'-', by simp, by decide⟩
  | unquoted _ ih => exact ih trivial
  | quoted => exact ⟨'"', by simp, by decide⟩
  | name h =>
    refine ⟨_, List.mem_cons_self, ?_⟩
    rintro rfl
    exact absurd h (by decide)

end Grammar

end PathQuery
