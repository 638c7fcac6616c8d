/-
# Literals hide their JSON text

A JSON text between backticks, with a backslash before each of its own, is read as what it
says. In a JSON text a backslash takes the next character with it and that is no backtick
(`Json.read_escaped`), so a backtick never comes after half of an escape: the backslash that
is put before it belongs to it, whatever run of backslashes there is already. Between the
backticks nothing is cut, and no form that is tried before a literal begins with a backtick.

Key definitions: `escapeLiteral`, `literalText`.
Key theorems: `literalBody_escapeLiteral`, `Form.literal_of_body`, `Expr.reads_literal`,
`Expr.parse_literalText`.
-/
import PathQuery.Proofs.Opaque

namespace PathQuery

open Grammar

/-- A JSON text as it stands between backticks: with a backslash before each backtick. -/
def escapeLiteral (t : List Char) : List Char :=
  t.flatMap fun c => if c = Token.backtick then ['\\', c] else [c]

/-- A JSON text between backticks, with its own escaped. -/
def literalText (t : String) : String :=
  String.ofList (Token.backtick :: escapeLiteral t.toList ++ [Token.backtick])

/-! ### The body of a literal -/

theorem escapeLiteral_cons {c : Char} (hc : c ≠ Token.backtick) (t : List Char) :
    escapeLiteral (c :: t) = c :: escapeLiteral t := by
  rw [escapeLiteral, List.flatMap_cons, if_neg hc]
  rfl

theorem escapeLiteral_backtick (t : List Char) :
    escapeLiteral (Token.backtick :: t) = '\\' :: Token.backtick :: escapeLiteral t := by
  rw [escapeLiteral, List.flatMap_cons, if_pos rfl]
  rfl

/-- **A text in which each backslash begins an escape is the body of a literal once its
backticks are escaped.** -/
theorem literalBody_escapeLiteral {t : List Char} (h : Json.Escaped t) : LiteralBody (escapeLiteral t) t := by
  induction h with
  | nil => exact .nil
  | @plain c t hc _ ih =>
    by_cases hb : c = Token.backtick
    · rw [hb, escapeLiteral_backtick]
      exact .escaped ih
    · rw [escapeLiteral_cons hb]
      exact .plain hc hb ih
  | @letter x y t hx _ ih =>
    have hb : x ≠ Token.backtick := by
      rintro rfl
      cases hx
    rw [escapeLiteral_cons (by decide), escapeLiteral_cons hb]
    exact .kept hb ih
  | codePoint _ ih =>
    rw [escapeLiteral_cons (by decide), escapeLiteral_cons (by decide)]
    exact .kept (by decide) ih

theorem decodeLiteral_of_body {t s : List Char} (h : LiteralBody t s) : Token.decodeLiteral t = some s := by
  induction h with
  | nil => rfl
  | plain hc hb _ ih =>
    rw [Token.decodeLiteral.eq_def]
    simp only [if_neg hc, if_neg hb, ih]
    rfl
  | escaped _ ih =>
    rw [Token.decodeLiteral.eq_def]
    simp only [↓reduceIte, ih]
    rfl
  | kept hx _ ih =>
    rw [Token.decodeLiteral.eq_def]
    simp only [↓reduceIte, if_neg hx, ih]
    rfl

/-! ### Reading a literal -/

namespace Form

/-- **A literal is read as what its JSON text says.** -/
theorem literal_of_body {t s : List Char} {v : Json} (h : LiteralBody t s) (hv : Json.read s = .ok v) :
    Reader.Accepts Token.literal (Token.backtick :: t ++ [Token.backtick]) v := by
  have hlen : ¬ (⟨0, (Token.backtick :: t ++ [Token.backtick]).length⟩ : Span).length < 2 := by
    simp [Span.length]
  refine (accepts_bounded (.of_enclosed t (by decide) (by decide))).mpr ?_
  simp only [if_neg hlen, Source.charAt_closing, Source.slice_inner, decodeLiteral_of_body h, hv]
  rfl

end Form

namespace Expr

open Form

theorem reads_literal {t s : List Char} {v : Json} (h : LiteralBody t s) (hv : Json.read s = .ok v) :
    Reads (Token.backtick :: t ++ [Token.backtick]) (.literal v) :=
  reads_of_first (.of_enclosed t (by decide) (by decide)) (.quoted (by decide) h.inside) (k := 11) rfl
    (map_eq_ok.mpr ⟨v, literal_of_body h hv, rfl⟩) (by decide)

/-- **A JSON text between backticks is read as what it says**, whatever characters it holds
and at any limit but 0. -/
theorem parse_literalText {limits : Limits} (h : 1 ≤ limits.maxDepth) {t : String} {v : Json}
    (hv : Json.read t.toList = .ok v) : parse limits (literalText t) = .ok (.literal v) := by
  have hbody := literalBody_escapeLiteral (Json.read_escaped hv)
  exact parse_of_reads (by rw [literalText, String.toList_ofList]; exact reads_literal hbody hv) h

/-- A string that ends its JSON text with two backslashes before a backtick and has an operator
and a bracket in it, at the smallest limit. -/
theorem parse_literalText_shallow :
    1 ≤ (⟨1⟩ : Limits).maxDepth ∧ Json.read "[\"||[\\\\\x60\"]".toList = .ok (.array [.string "||[\\\x60"]) ∧
      literalText "[\"||[\\\\\x60\"]" = "\x60[\"||[\\\\\\\x60\"]\x60" ∧
      parse ⟨1⟩ (literalText "[\"||[\\\\\x60\"]") = .ok (.literal (.array [.string "||[\\\x60"])) := by
  have hread : Json.read "[\"||[\\\\\x60\"]".toList = .ok (.array [.string "||[\\\x60"]) := rfl
  exact ⟨by decide, hread, by decide, parse_literalText (by decide) hread⟩

end Expr

end PathQuery
