/-
# Tokens hide what they hold

A name, a name between double quotes and a raw string are read as what they say whatever
characters they hold. No beginning of one that ends inside it is closed, so no operator, dot
or bracket in it is a place to cut it, and none of the forms that are tried before is begun
by its first character. Escapes are undone from the left, one at a time, which gives the
string back that they were written for. Nothing is nested in a token, so any limit but 0 is
enough to read it.

Key definitions: `rawText`, `Quoted.escapeLetter?`, `escapeName`, `quotedText`.
Key theorems: `quotedBody_escapeName`, `Form.quotedName_of_body`, `Expr.reads_quoted`,
`Expr.parse_token`.
-/
import PathQuery.Proofs.Limit
import PathQuery.Proofs.Written

namespace PathQuery

open Grammar

/-- A string between single quotes, with its quotes and backslashes escaped. -/
def rawText (s : String) : String := String.ofList ('\'' :: escapeRaw s.toList ++ ['\''])

/-! ### Names between double quotes -/

namespace Quoted

/-- The control characters that are written with a letter. -/
def lettered : List Char := ['\x08', '\x0c', '\n', '\r', '\t']

/-- What stands after a backslash for a character that is escaped. -/
def escapeLetter? (c : Char) : Option Char :=
  if c = '"' then some '"'
  else if c = '\\' then some '\\'
  else if c = '\x08' then some 'b'
  else if c = '\x0c' then some 'f'
  else if c = '\n' then some 'n'
  else if c = '\r' then some 'r'
  else if c = '\t' then some 't'
  else none

theorem unescapeLetter?_of_escapeLetter? {c x : Char} (h : escapeLetter? c = some x) :
    unescapeLetter? x = some c := by
  unfold escapeLetter? at h
  split_ifs at h <;> cases h <;> subst c <;> rfl

theorem isUnescaped_of_escapeLetter? {c : Char} (h : escapeLetter? c = none) (hc : ' ' ≤ c ∨ c ∈ lettered) :
    CharClass.isUnescaped c = true := by
  unfold escapeLetter? at h
  split_ifs at h with hquote hslash hb hf hn hr ht
  have hspace : ' ' ≤ c := hc.resolve_right fun hmem => by
    simp only [lettered, List.mem_cons, List.not_mem_nil, or_false] at hmem
    rcases hmem with hmem | hmem | hmem | hmem | hmem
    · exact hb hmem
    · exact hf hmem
    · exact hn hmem
    · exact hr hmem
    · exact ht hmem
  simp only [CharClass.isUnescaped, Bool.and_eq_true, decide_eq_true_eq, bne_iff_ne]
  exact ⟨⟨hspace, hquote⟩, hslash⟩

end Quoted

/-- A name as it stands between double quotes. -/
def escapeName : List Char → List Char
  | [] => []
  | c :: s =>
    match Quoted.escapeLetter? c with
    | some x => '\\' :: x :: escapeName s
    | none => c :: escapeName s

/-- A name between double quotes, with what has to be escaped. -/
def quotedText (s : String) : String := String.ofList ('"' :: escapeName s.toList ++ ['"'])

theorem escapeName_ne_nil : ∀ {s : List Char}, s ≠ [] → escapeName s ≠ []
  | [], h => absurd rfl h
  | c :: s, _ => by
    unfold escapeName
    split <;> exact List.cons_ne_nil _ _

theorem quotedBody_escapeName : ∀ {s : List Char}, (∀ c ∈ s, ' ' ≤ c ∨ c ∈ Quoted.lettered) →
    QuotedBody (escapeName s) s
  | [], _ => .nil
  | c :: s, h => by
    obtain ⟨hc, hs⟩ := List.forall_mem_cons.mp h
    have hrest := quotedBody_escapeName hs
    unfold escapeName
    cases hx : Quoted.escapeLetter? c with
    | some x => exact .escaped (Quoted.unescapeLetter?_of_escapeLetter? hx) hrest
    | none => exact .plain (Quoted.isUnescaped_of_escapeLetter? hx hc) hrest

theorem decodeQuoted_of_body {t s : List Char} (h : QuotedBody t s) (position : Nat) :
    Token.decodeQuoted t position = .ok s := by
  induction h generalizing position with
  | nil => rfl
  | @plain c t s hc _ ih =>
    have hslash : c ≠ '\\' := by
      rintro rfl
      exact absurd hc (by decide)
    rw [Token.decodeQuoted.eq_def]
    simp only [if_neg hslash, if_pos hc, ih]
    rfl
  | @escaped x y t s hx _ ih =>
    have hu : x ≠ 'u' := by
      rintro rfl
      cases hx
    rw [Token.decodeQuoted.eq_def]
    simp only [↓reduceIte, if_neg hu, hx, ih]
    rfl
  | codePoint hx _ ih =>
    rw [Token.decodeQuoted, if_pos rfl, if_pos rfl, if_pos hx, ih]
    rfl

namespace Form

variable {t s : List Char}

/-- **A name between double quotes is read as what it says.** -/
theorem quotedName_of_body (h : QuotedBody t s) (ht : t ≠ []) :
    Reader.Accepts Token.quotedName ('"' :: t ++ ['"']) (String.ofList s) := by
  have hlen : ¬ (⟨0, ('"' :: t ++ ['"']).length⟩ : Span).length < 3 := by
    have := List.length_pos_iff.mpr ht
    simp [Span.length]
    omega
  refine (accepts_bounded (.of_enclosed t (by decide) (by decide))).mpr ?_
  simp only [hlen, Source.charAt_closing, Source.slice_inner, decodeQuoted_of_body h]
  rfl

theorem identifier_of_body (h : QuotedBody t s) (ht : t ≠ []) :
    Reader.Accepts Token.identifier ('"' :: t ++ ['"']) (String.ofList s) := by
  have htight : Tight ('"' :: t ++ ['"']) := .of_enclosed t (by decide) (by decide)
  refine identifier_iff.mpr (.later (fun n hn => ?_) (.here (quotedName_of_body h ht)))
  exact absurd ((name_iff htight).mp hn).1.1 (by decide)

end Form

namespace Expr

open Form

variable {t s : List Char}

theorem reads_quoted (h : QuotedBody t s) (ht : t ≠ []) :
    Reads ('"' :: t ++ ['"']) (.selector (.identifier (String.ofList s))) :=
  reads_of_first (.of_enclosed t (by decide) (by decide)) (.quoted (by decide) h.inside) (k := 4) rfl
    (map_eq_ok.mpr ⟨_, map_eq_ok.mpr ⟨_, identifier_of_body h ht, rfl⟩, rfl⟩) (by decide)

/-! ### Whole texts -/

/-- A text is a name as a whole if it is read as one. -/
theorem parseIdentifier_of_accepts {text n : String} (hne : text.toList ≠ [])
    (h : Reader.Accepts Token.identifier text.toList n) : parseIdentifier text = .ok n := by
  have hsize : (Source.ofString text).size ≠ 0 := fun hzero => hne (List.length_eq_zero_iff.mp hzero)
  unfold parseIdentifier
  simp only [if_neg hsize]
  exact h

variable {limits : Limits}

theorem parse_rawText {s : String} (h : 1 ≤ limits.maxDepth) (hs : ∀ c ∈ s.toList, ' ' ≤ c) :
    parse limits (rawText s) = .ok (.raw s) := by
  have hall : s.toList.all (' ' ≤ ·) = true := List.all_eq_true.mpr fun c hc => decide_eq_true (hs c hc)
  have hreads := reads_raw (rawBody_escapeRaw hall)
  rw [String.ofList_toList] at hreads
  exact parse_of_reads (by rwa [rawText, String.toList_ofList]) h

theorem parse_quotedText {s : String} (h : 1 ≤ limits.maxDepth) (hne : s ≠ "")
    (hs : ∀ c ∈ s.toList, ' ' ≤ c ∨ c ∈ Quoted.lettered) :
    parse limits (quotedText s) = .ok (.selector (.identifier s)) ∧ parseIdentifier (quotedText s) = .ok s := by
  have hbody := quotedBody_escapeName hs
  have hescaped : escapeName s.toList ≠ [] := escapeName_ne_nil fun hnil => hne (String.toList_eq_nil_iff.mp hnil)
  have hreads := reads_quoted hbody hescaped
  have haccepts := identifier_of_body hbody hescaped
  rw [String.ofList_toList] at hreads haccepts
  constructor
  · exact parse_of_reads (by rwa [quotedText, String.toList_ofList]) h
  · refine parseIdentifier_of_accepts ?_ (by rwa [quotedText, String.toList_ofList])
    rw [quotedText, String.toList_ofList]
    exact List.cons_ne_nil _ _

theorem parse_name (h : 1 ≤ limits.maxDepth) (n : Name) :
    parse limits n.text = .ok (.selector (.identifier n.text)) ∧ parseIdentifier n.text = .ok n.text := by
  have hreads := reads_name n.isName
  have haccepts := identifier_of_name n.isName
  rw [String.ofList_toList] at hreads haccepts
  exact ⟨parse_of_reads hreads h, parseIdentifier_of_accepts n.isName.tight.ne_nil haccepts⟩

/-- **Tokens are read as what they were written for.** A raw string of any characters from
the space on, a quoted name of any such characters and the five controls with a letter, and
a name without quotes, each at any limit but 0. -/
theorem parse_token (h : 1 ≤ limits.maxDepth) :
    (∀ s : String, (∀ c ∈ s.toList, ' ' ≤ c) → parse limits (rawText s) = .ok (.raw s)) ∧
      (∀ s : String, s ≠ "" → (∀ c ∈ s.toList, ' ' ≤ c ∨ c ∈ Quoted.lettered) →
        parse limits (quotedText s) = .ok (.selector (.identifier s)) ∧
          parseIdentifier (quotedText s) = .ok s) ∧
      ∀ n : Name, parse limits n.text = .ok (.selector (.identifier n.text)) ∧
        parseIdentifier n.text = .ok n.text :=
  ⟨fun _ => parse_rawText h, fun _ => parse_quotedText h, parse_name h⟩

/-- A raw string with an operator and quotes in it, a quoted name with a line feed, and a
name, at the smallest limit. -/
theorem parse_token_shallow :
    1 ≤ (⟨1⟩ : Limits).maxDepth ∧ rawText "a||'[\"" = "'a||\\'[\"'" ∧
      parse ⟨1⟩ (rawText "a||'[\"") = .ok (.raw "a||'[\"") ∧ quotedText "a.\"\n" = "\"a.\\\"\\n\"" ∧
      parse ⟨1⟩ (quotedText "a.\"\n") = .ok (.selector (.identifier "a.\"\n")) ∧
      parseIdentifier (quotedText "a.\"\n") = .ok "a.\"\n" ∧
      parse ⟨1⟩ "_1" = .ok (.selector (.identifier "_1")) ∧ parseIdentifier "_1" = .ok "_1" := by
  have hall := @parse_token ⟨1⟩ (by decide)
  have hquoted := hall.2.1 "a.\"\n" (by decide) (by simp [Quoted.lettered])
  have hname := hall.2.2 ⟨"_1", by decide⟩
  exact ⟨by decide, by decide, hall.1 _ (by simp), by decide, hquoted.1, hquoted.2, hname.1, hname.2⟩

end Expr

end PathQuery
