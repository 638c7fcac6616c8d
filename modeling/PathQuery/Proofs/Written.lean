/-
# What written tokens are read as

The other half of the grammar for the parts without expressions in them: a number, a raw
string and a bracket that are written as the grammar has them are read as what they say.
A bracket with something between is a filter if that begins with a question mark, and one
of the other three kinds if not; either way it is closed. So a list of two or more
expressions is never a bracket.

Key definitions: `escapeRaw`, `decimal`.
Key theorems: `Form.number_of_isNumber`, `Form.rawString_of_body`, `Form.bracket_iff`,
`Form.bracket_closed`.
-/
import PathQuery.Proofs.Sequence

namespace PathQuery

open Grammar

/-! ### Numbers -/

/-- The decimal digits of an integer, after a minus sign if it is negative. -/
def decimal (n : Int64) : List Char := (toString n.toInt).toList

theorem isNumber_decimal (n : Int64) : IsNumber (decimal n) n := by
  have hdigits : ∀ m, (Nat.toDigits 10 m).all Char.isDigit = true := fun m =>
    List.all_eq_true.mpr fun c hc => Nat.isDigit_of_mem_toDigits (by decide) (by decide) hc
  have hvalue : ∀ m, CharClass.natOfDigits (Nat.toDigits 10 m) = m := fun m => Nat.ofDigitChars_ten_toDigits
  unfold decimal
  cases hn : n.toInt with
  | ofNat m =>
    refine ⟨Nat.toDigits 10 m, Nat.toDigits_ne_nil, hdigits m, .inl ⟨?_, by rw [hvalue, hn]; rfl⟩⟩
    rw [← Nat.toList_repr]
    rfl
  | negSucc m =>
    refine ⟨Nat.toDigits 10 (m + 1), Nat.toDigits_ne_nil, hdigits _, .inr ⟨?_, by rw [hvalue, hn]; rfl⟩⟩
    rw [← Nat.toList_repr, show toString (Int.negSucc m) = "-" ++ (m + 1).repr from rfl, String.toList_append]
    rfl

/-! ### Raw strings -/

/-- A raw string as it stands between its quotes. -/
def escapeRaw : List Char → List Char
  | [] => []
  | c :: s => if c = '\'' ∨ c = '\\' then '\\' :: c :: escapeRaw s else c :: escapeRaw s

theorem rawBody_escapeRaw : ∀ {s : List Char}, s.all (' ' ≤ ·) = true → RawBody (escapeRaw s) s
  | [], _ => .nil
  | c :: s, h => by
    rw [List.all_cons, Bool.and_eq_true] at h
    have hrest := rawBody_escapeRaw h.2
    unfold escapeRaw
    by_cases hc : c = '\'' ∨ c = '\\'
    · rw [if_pos hc]
      exact .escaped hc hrest
    · rw [if_neg hc]
      obtain ⟨hquote, hslash⟩ := not_or.mp hc
      refine .plain ?_ hrest
      simp only [CharClass.isRaw, h.1, Bool.true_and, Bool.and_eq_true, bne_iff_ne]
      exact ⟨hquote, hslash⟩

theorem decodeRaw_of_body {t s : List Char} (h : RawBody t s) (position : Nat) :
    Token.decodeRaw t position = .ok s := by
  induction h generalizing position with
  | nil => rfl
  | @plain c t s hc _ ih =>
    have hslash : c ≠ '\\' := by
      rintro rfl
      exact absurd hc (by decide)
    unfold Token.decodeRaw
    rw [if_neg hslash, if_pos hc, ih]
    rfl
  | escaped hx _ ih =>
    rw [Token.decodeRaw, if_pos rfl]
    simp only [if_pos hx, ih]
    rfl
  | @kept x t s hx _ ih =>
    have hplain : ¬(x = '\'' ∨ x = '\\') := by
      rintro (rfl | rfl) <;> exact absurd hx (by decide)
    rw [Token.decodeRaw, if_pos rfl]
    simp only [if_neg hplain, if_pos hx, ih]
    rfl

namespace Form

open PathQuery.Expr (Reads)

variable {c : Char} {t s w : List Char}

/-- **A number is read as what it says.** -/
theorem number_of_isNumber {n : Int64} (h : IsNumber t n) : Reader.Accepts Token.number t n := by
  obtain ⟨digits, hne, hall, ht⟩ := h
  have hspace : ∀ c ∈ digits, c ≠ ' ' := by
    rintro c hc rfl
    exact absurd (List.all_eq_true.mp hall ' ' hc) (by decide)
  have hdigits : Tight digits :=
    ⟨hne, fun h => hspace _ (List.mem_of_mem_head? h) rfl, fun h => hspace _ (List.mem_of_getLast? h) rfl⟩
  have hrange : Int64.minValue.toInt ≤ n.toInt ∧ n.toInt ≤ Int64.maxValue.toInt :=
    ⟨n.minValue_le_toInt, n.toInt_le⟩
  obtain ⟨d, ds, rfl⟩ := List.exists_cons_of_ne_nil hne
  rcases ht with ⟨rfl, hn⟩ | ⟨rfl, hn⟩
  · have hsign : (some d == some '-') = false := by
      refine beq_eq_false_iff_ne.mpr fun h => ?_
      rw [Option.some.inj h] at hall
      exact absurd hall (by simp)
    refine (accepts_bounded hdigits).mpr ?_
    simp only [charAt_head, hsign, Bool.false_eq_true, if_false, Source.slice_whole_ofChars]
    rw [if_neg (by simp [hall]), ← hn, if_pos hrange, Int64.ofInt_toInt]
  · have htight : Tight ('-' :: d :: ds) := (show Tight ['-'] from ⟨nofun, by decide, by decide⟩).join [] hdigits
    have hslice : (Source.ofChars ('-' :: d :: ds)).slice ⟨0 + 1, ('-' :: d :: ds).length⟩ = d :: ds := by
      rw [Source.slice_ofChars]
      simp
    refine (accepts_bounded htight).mpr ?_
    simp only [charAt_head, beq_self_eq_true, if_true, hslice]
    rw [if_neg (by simp [hall]), ← hn, if_pos hrange, Int64.ofInt_toInt]

/-- **A raw string is read as what it says.** -/
theorem rawString_of_body (h : RawBody t s) :
    Reader.Accepts Token.rawString ('\'' :: t ++ ['\'']) (String.ofList s) := by
  have hlen : ¬ (⟨0, ('\'' :: t ++ ['\'']).length⟩ : Span).length < 2 := by simp [Span.length]
  refine (accepts_bounded (.of_enclosed t (by decide) (by decide))).mpr ?_
  simp only [if_neg hlen, Source.charAt_closing, Source.slice_inner, decodeRaw_of_body h]
  rfl

/-! ### Brackets -/

theorem bracketContent_local : Reader.Local bracketContent := bracketContent_shift

/-- **What square brackets are**, if there is something between them. -/
theorem bracket_iff {b : Bracket} : (reader bracket).Accepts ('[' :: (c :: w) ++ [']']) b ↔
    if c = '?' then ∃ e, Reads w e ∧ b = .filter e else Reader.Accepts bracketContent (c :: w) b := by
  have hlen : ('[' :: (c :: w) ++ [']']).length = w.length + 3 := by simp
  have hlast := Source.charAt_closing (a := '[') (b := ']') (c :: w)
  have hsecond : (Source.ofChars ('[' :: (c :: w) ++ [']'])).charAt (0 + 1) = some c := by
    rw [Source.charAt_ofChars]
    rfl
  have hfilter : ∀ e, Expr.read (.ofChars ('[' :: (c :: w) ++ [']']))
      ⟨0 + 2, ('[' :: (c :: w) ++ [']']).length - 1⟩ = .ok e ↔ Reads w e := by
    intro e
    rw [Expr.read_local.eq_ok (by simp) (Nat.sub_le _ _), Source.slice_ofChars, hlen]
    simp [Reads]
  have hcontent : bracketContent (.ofChars ('[' :: (c :: w) ++ [']']))
      (Span.inner ⟨0, ('[' :: (c :: w) ++ [']']).length⟩) = .ok b ↔ Reader.Accepts bracketContent (c :: w) b := by
    rw [bracketContent_local.eq_ok (by simp [Span.inner]) (Nat.sub_le _ _), Source.slice_inner]
  have hwide : ¬ (⟨0, ('[' :: (c :: w) ++ [']']).length⟩ : Span).length < 2 := by
    simp only [Span.length, hlen]
    omega
  have hthree : ¬ (⟨0, ('[' :: (c :: w) ++ [']']).length⟩ : Span).length = 2 := by
    simp only [Span.length, hlen]
    omega
  have hfirst : (Source.ofChars ('[' :: (c :: w) ++ [']'])).charAt 0 = some '[' := charAt_head _ _
  have ht : Tight ('[' :: (c :: w) ++ [']']) := .of_enclosed _ (by decide) (by decide)
  generalize '[' :: (c :: w) ++ [']'] = t at *
  refine (accepts_bounded ht).trans ?_
  rw [if_neg (not_not_intro hfirst), if_neg (not_or.mpr ⟨hwide, not_not_intro hlast⟩), if_neg hthree, hsecond]
  by_cases hc : c = '?'
  · rw [if_pos hc, if_pos (congrArg some hc)]
    exact map_eq_ok.trans (exists_congr fun e => and_congr (hfilter e) eq_comm)
  · rw [if_neg hc, if_neg fun h => hc (Option.some.inj h)]
    exact hcontent

/-- A number between square brackets. -/
theorem bracket_of_isNumber {n : Int64} (h : IsNumber t n) : (reader bracket).Accepts ('[' :: t ++ [']']) (.number n) := by
  have hhead : ∀ c u, t = c :: u → c ≠ '?' := by
    rintro _ u rfl rfl
    obtain ⟨digits, -, hall, ⟨rfl, -⟩ | ⟨he, -⟩⟩ := h
    · exact absurd hall (by simp)
    · exact absurd (List.cons.inj he).1 (by decide)
  have hfirst : FirstOf t [fun src s => (Token.number src s).map Bracket.number,
      fun src => mark src "star-expression" '*' .star, fun src s => (slice src s).map .slice] (.number n) :=
    .here (map_eq_ok.mpr ⟨n, number_of_isNumber h, rfl⟩)
  rw [← Rule.oneOf_iff (n := "bracket-specifier-content")] at hfirst
  cases t with
  | nil => cases hfirst
  | cons c u => exact bracket_iff.mpr (by rwa [if_neg (hhead c u rfl)])

/-- What stands between square brackets is closed. -/
theorem bracket_closed {b : Bracket} (h : (reader bracket).Accepts ('[' :: w ++ [']']) b) : Closed w := by
  cases w with
  | nil => exact .nil
  | cons c w =>
    rw [bracket_iff] at h
    split at h
    · rename_i hc
      obtain ⟨e, he, -⟩ := h
      exact hc ▸ .append (t := ['?']) rfl (Expr.reads_closed he)
    · obtain ⟨rule, hrule, h⟩ := Rule.oneOf_eq_ok h
      simp only [List.mem_cons, List.not_mem_nil, or_false] at hrule
      rcases hrule with rfl | rfl | rfl
      · obtain ⟨n, hn, -⟩ := map_eq_ok.mp h
        exact Expr.phrase_balanced (Token.number_phrase (Nat.le_refl _) hn)
      · obtain ⟨u, hu, -⟩ := map_eq_ok.mp h
        exact Expr.phrase_balanced (Token.single_phrase .star .star (Nat.le_refl _) hu)
      · obtain ⟨x, hx, -⟩ := map_eq_ok.mp h
        exact Expr.phrase_balanced (slice_phrase (Nat.le_refl _) hx)

end Form

/-! ### What is read by its first character -/

namespace Expr

open Form

variable {i : Bool} {c : Char} {t s w : List Char} {e : Expr}

theorem reads_name (h : IsName t) : Reads t (.selector (.identifier (String.ofList t))) := by
  have huncut : Uncuttable t := .of_tail fun c hc => h.not_joint c (List.mem_of_mem_tail hc)
  have ht := h.tight
  have haccepts : Reader.Accepts (fun src => alone (identifier src)) t (.selector (.identifier (String.ofList t))) :=
    map_eq_ok.mpr ⟨_, map_eq_ok.mpr ⟨_, identifier_of_name h, rfl⟩, rfl⟩
  obtain ⟨c, u, rfl, hc⟩ := h.exists_cons
  refine reads_of_head ht huncut (k := 4) rfl haccepts fun j R hj hheads => ?_
  rcases heads_nameStart hc hheads with rfl | rfl <;> omega

theorem reads_raw (h : RawBody t s) : Reads ('\'' :: t ++ ['\'']) (.raw (String.ofList s)) := by
  exact reads_of_first (.of_enclosed t (by decide) (by decide)) (.quoted (by decide) h.inside) (k := 14) rfl
    (map_eq_ok.mpr ⟨_, rawString_of_body h, rfl⟩) (by decide)

theorem reads_paren (h : Reads t e) : Reads ('(' :: t ++ [')']) (.paren e) := by
  have ht : Tight ('(' :: t ++ [')']) := .of_enclosed t (by decide) (by decide)
  exact reads_of_first ht (.enclosed (reads_closed h) rfl) (k := 7) rfl
    ((parenthesised_iff ht).mpr ⟨t, e, rfl, h, rfl⟩) (by decide)

theorem reads_not (h : Reads t e) : Reads ('!' :: '(' :: t ++ [')']) (.not (.paren e)) := by
  have ht : Tight ('!' :: '(' :: t ++ [')']) := .of_enclosed ('(' :: t) (by decide) (by decide)
  have huncut : Uncuttable (['!'] ++ ('(' :: t ++ [')'])) :=
    .after (List.forall_mem_singleton.mpr rfl) nofun (.enclosed (reads_closed h) rfl) fun _ => by decide
  exact reads_of_first ht huncut (k := 6) rfl ((negated_iff ht).mpr ⟨_, _, rfl, reads_paren h, rfl⟩) (by decide)

/-- Square brackets on their own. -/
theorem reads_index {b : Bracket} (h : (reader bracket).Accepts ('[' :: w ++ [']']) b) :
    Reads ('[' :: w ++ [']']) (.index b) := by
  have ht : Tight ('[' :: w ++ [']']) := .of_enclosed w (by decide) (by decide)
  have huncut : Uncuttable ('[' :: w ++ [']']) := .enclosed (bracket_closed h) rfl
  have hleft : ∀ e, ¬ (reader indexedLeft).Accepts ('[' :: w ++ [']']) e := by
    intro e he
    obtain ⟨l, b, ⟨x, y, htext, hl, hb, -⟩, -⟩ := (indexedLeft_iff ht).mp he
    exact huncut.not_cut (htext ▸ Cut.index hl hb)
  have haccepts := (indexed_iff ht).mpr (.later hleft (.here (map_eq_ok.mpr ⟨b, h, rfl⟩)))
  exact reads_of_first ht huncut (k := 1) rfl haccepts (by decide)

/-- **Two or more expressions between square brackets are a list.** -/
theorem reads_list {t u : List Char} {ts : List (List Char)} {x y : Expr} {es : List Expr} (ht : Reads t x)
    (hu : Reads u y) (h : List.Forall₂ Reads ts es) :
    Reads ('[' :: [','].intercalate (t :: u :: ts) ++ [']']) (.selector (.list (x :: y :: es))) := by
  have htight : Tight ('[' :: [','].intercalate (t :: u :: ts) ++ [']']) := .of_enclosed _ (by decide) (by decide)
  have huncut : Uncuttable ('[' :: [','].intercalate (t :: u :: ts) ++ [']']) :=
    .enclosed (Rule.balanced_join (R := read) reads_closed (.cons ht (.cons hu h))) rfl
  have hlist := Rule.entries_several (a := '[') (b := ']') read_local reads_closed (by decide) (by decide) ht hu h
  refine reads_of_head htight huncut (k := 9) rfl (map_eq_ok.mpr ⟨_, map_eq_ok.mpr ⟨_, hlist, rfl⟩, rfl⟩)
    fun j R hj hheads hR e he => ?_
  have hbracket : ∀ j < 9, heads j '[' = true → j = 1 := by decide
  cases hbracket j hj hheads
  cases hR
  rcases (indexed_iff htight).mp he with he | ⟨-, he | ⟨-, he⟩⟩
  · obtain ⟨l, b, ⟨x, y, htext, hl, hb, -⟩, -⟩ := (indexedLeft_iff htight).mp he
    exact huncut.not_cut (htext ▸ Cut.index hl hb)
  · -- the comma after the first entry stands outside all brackets
    obtain ⟨b, hb, -⟩ := map_eq_ok.mp he
    exact (reads_closed ht).not_closed_append rfl (bracket_closed hb)
  · cases he

end Expr

end PathQuery
