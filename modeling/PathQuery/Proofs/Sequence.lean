/-
# Calls and objects

A name is read as itself, and a name before parentheses as the call of a function:
the first parenthesis of the text ends the name. The arguments, and the entries of an
object, are told apart at their commas. So a call or an object is read as what its
expressions are read as, unless it has one expression only and that has a comma in it:
then no comma ends a first entry, and the whole text is refused (`parse_sequence`).

Key definitions: `IsName`, `Name`, `Sequence`.
Key theorems: `Form.name_iff`, `Form.call_iff`, `Expr.parse_sequence`.
-/
import PathQuery.Proofs.Uncut

namespace PathQuery

open Grammar

/-! ### Names -/

/-- A letter or `_`, and letters, digits and `_` after it. -/
def IsName : List Char → Prop
  | [] => False
  | c :: t => CharClass.isNameStart c = true ∧ t.all CharClass.isNameChar = true

instance : (t : List Char) → Decidable (IsName t)
  | [] => inferInstanceAs (Decidable False)
  | _ :: _ => inferInstanceAs (Decidable (_ ∧ _))

/-- A name without quotes. -/
structure Name where
  text : String
  isName : IsName text.toList

namespace IsName

variable {t : List Char}

theorem exists_cons (h : IsName t) : ∃ c u, t = c :: u ∧ CharClass.isNameStart c = true := by
  cases t with
  | nil => exact h.elim
  | cons c u => exact ⟨c, u, rfl, h.1⟩

theorem mem (h : IsName t) {c : Char} (hc : c ∈ t) : CharClass.isNameChar c = true := by
  cases t with
  | nil => exact h.elim
  | cons d u =>
    rcases List.mem_cons.mp hc with rfl | hc
    · exact isNameChar_of_isNameStart h.1
    · exact List.all_eq_true.mp h.2 c hc

theorem not_mem (h : IsName t) {c : Char} (hc : CharClass.isNameChar c = false) : c ∉ t := fun hmem => by
  rw [h.mem hmem] at hc
  cases hc

theorem tight (h : IsName t) : Tight t where
  ne_nil := by
    rintro rfl
    exact h
  head hhead := h.not_mem rfl (List.mem_of_mem_head? hhead)
  last hlast := h.not_mem rfl (List.mem_of_getLast? hlast)

theorem isPlain (h : IsName t) : ∀ c ∈ t, isPlain c = true := fun _ hc => isPlain_of_isNameChar (h.mem hc)

theorem not_joint (h : IsName t) : ∀ c ∈ t, c ∉ joints := by
  intro c hc hjoint
  have hname := h.mem hc
  simp only [joints, Operator.heads, List.mem_cons, List.not_mem_nil, or_false] at hjoint
  rcases hjoint with rfl | rfl | rfl | rfl | rfl | rfl | rfl | rfl <;> exact absurd hname (by decide)

/-- A name before a text between brackets. -/
theorem uncuttable_enclosed (h : IsName t) {i : Bool} {w : List Char} (hw : Balanced i w) :
    Uncuttable (t ++ ('(' :: w ++ [')'])) :=
  .after h.isPlain (fun c hc => h.not_joint c (List.mem_of_mem_tail hc)) (.enclosed hw rfl) fun _ => by decide

end IsName

namespace Form

open PathQuery.Expr (Reads)

variable {t u f w : List Char} {n : String}

/-- **A name is read as itself.** -/
theorem name_iff (ht : Tight t) : Reader.Accepts Token.name t n ↔ IsName t ∧ n = String.ofList t := by
  obtain ⟨c, u, rfl⟩ := List.exists_cons_of_ne_nil ht.ne_nil
  refine (accepts_bounded ht).trans ?_
  simp only [charAt_head, Option.any_some, Source.text, Source.slice_whole_ofChars]
  cases hc : CharClass.isNameStart c with
  | false =>
    simp only [Bool.false_eq_true, if_false]
    refine iff_of_false Rule.fail_ne_ok fun h => ?_
    rw [h.1.1] at hc
    cases hc
  | true =>
    simp only [if_true]
    have hall : (c :: u).findIdx? (fun d => !CharClass.isNameChar d) = none ↔ IsName (c :: u) := by
      rw [List.findIdx?_eq_none_iff]
      simp only [Bool.not_eq_eq_eq_not, Bool.not_false]
      exact ⟨fun h => ⟨hc, List.all_eq_true.mpr fun d hd => h d (List.mem_cons_of_mem c hd)⟩, fun h d hd => h.mem hd⟩
    cases hi : (c :: u).findIdx? (fun d => !CharClass.isNameChar d) with
    | some i =>
      rw [hi] at hall
      exact iff_of_false Rule.fail_ne_ok fun h => absurd (hall.mpr h.1) (Option.some_ne_none i)
    | none =>
      simp only [Except.ok.injEq]
      exact ⟨fun h => ⟨hall.mp hi, h.symm⟩, fun h => h.2.symm⟩

theorem identifier_iff : Reader.Accepts Token.identifier t n ↔ FirstOf t [Token.name, Token.quotedName] n := by
  rw [← Rule.oneOf_iff (n := "identifier")]
  exact Iff.rfl

theorem identifier_of_name (h : IsName t) : Reader.Accepts Token.identifier t (String.ofList t) :=
  identifier_iff.mpr (.here ((name_iff h.tight).mpr ⟨h, rfl⟩))

/-- A name may stand after a dot. -/
theorem afterDot_of_name (h : IsName t) : (reader afterDot).Accepts t (.identifier (String.ofList t)) := by
  have hfirst : FirstOf t [identifier, reader listOf, reader hashOf, reader call, star]
      (.identifier (String.ofList t)) := .here (map_eq_ok.mpr ⟨_, identifier_of_name h, rfl⟩)
  rw [← Rule.oneOf_iff (n := "sub-expression-right")] at hfirst
  exact hfirst

/-- What begins like a name is a name or no identifier at all. -/
theorem isName_of_identifier {c : Char} (ht : Tight (c :: u)) (hc : CharClass.isNameStart c = true)
    (h : Reader.Accepts Token.identifier (c :: u) n) : IsName (c :: u) := by
  rcases identifier_iff.mp h with h | ⟨-, h | ⟨-, h⟩⟩
  · exact ((name_iff ht).mp h).1
  · have hquote := head_of_quotedName ht h
    rw [hquote] at hc
    exact absurd hc (by decide)
  · cases h

/-! ### Calls -/

/-- The first place of a character that does not stand before it. -/
theorem findChar_after {c : Char} (h : c ∉ t) :
    (Source.ofChars (t ++ c :: u)).findChar ⟨0, (t ++ c :: u).length⟩ c = some t.length := by
  have hsize : (Source.ofChars (t ++ c :: u)).size = (t ++ c :: u).length := rfl
  unfold Source.findChar
  rw [hsize, Nat.min_self, List.find?_range'_eq_some]
  refine ⟨?_, List.mem_range'_1.mpr ⟨Nat.zero_le _, ?_⟩, fun j _ hj => ?_⟩
  · rw [Source.charAt_ofChars, List.getElem?_append_right (Nat.le_refl _), Nat.sub_self]
    exact beq_self_eq_true _
  · simp only [List.length_append, List.length_cons]
    omega
  · rw [Source.charAt_ofChars, List.getElem?_append_left hj, List.getElem?_eq_getElem hj, Bool.not_eq_true',
      beq_eq_false_iff_ne]
    exact fun he => h (Option.some.inj he ▸ List.getElem_mem hj)

theorem arguments_local : (reader arguments).Local := fun w => arguments_shift w (agree_read w)

/-- **A name before a parenthesis is the call of a function.** -/
theorem call_iff (hf : IsName f) (ht : Tight (f ++ '(' :: w)) {x : Selector} :
    (reader call).Accepts (f ++ '(' :: w) x ↔
      ∃ as, (reader arguments).Accepts ('(' :: w) as ∧ x = .call (String.ofList f) as := by
  have hname : Token.name (.ofChars (f ++ '(' :: w)) ⟨0, f.length⟩ = .ok (String.ofList f) := by
    have hstop : f.length ≤ (Source.ofChars (f ++ '(' :: w)).size := by
      change _ ≤ (f ++ '(' :: w).length
      simp
    have hlocal : Reader.Local Token.name := Token.name_shift
    rw [hlocal.eq_ok (Nat.zero_le _) hstop, Source.slice_ofChars, List.drop_zero, Nat.sub_zero, List.take_left]
    exact (name_iff hf.tight).mpr ⟨hf, rfl⟩
  have hargs : ∀ as, (reader arguments) (.ofChars (f ++ '(' :: w)) ⟨f.length, (f ++ '(' :: w).length⟩ = .ok as ↔
      (reader arguments).Accepts ('(' :: w) as := by
    intro as
    have hslice : (Source.ofChars (f ++ '(' :: w)).slice ⟨f.length, (f ++ '(' :: w).length⟩ = '(' :: w := by
      rw [Source.slice_ofChars, List.drop_left]
      exact List.take_of_length_le (by simp)
    rw [arguments_local.eq_ok (by simp) (Nat.le_refl _), hslice]
  refine (accepts_bounded ht).trans ?_
  have hne : f.length ≠ 0 := fun h => hf.tight.ne_nil (List.eq_nil_of_length_eq_zero h)
  simp only [findChar_after (hf.not_mem (c := '(') rfl), Option.getD_some, if_neg hne, functionName]
  rw [hname]
  refine (map_eq_ok (f := Selector.call (String.ofList f))).trans ?_
  simp only [← hargs, eq_comm]

theorem argument_local : (reader argument).Local := fun w => argument_shift w (agree_read w) (Expr.read_local w)

theorem argument_closed : Rule.AcceptsClosed (reader argument) := fun h =>
  Expr.phrase_balanced (argument_phrase (Expr.read_sound _) (Nat.le_refl _) h)

theorem argument_of_reads {e : Expr} (h : Reads t e) : (reader argument).Accepts t (.value e) := by
  have hfirst : FirstOf t [fun src s => (Expr.read src s).map Argument.value,
      fun src s => (reference src (Expr.read src) s).map .reference] (.value e) := .here (map_eq_ok.mpr ⟨e, h, rfl⟩)
  rw [← Rule.oneOf_iff (n := "function-arg")] at hfirst
  exact hfirst

/-- Parentheses that hold something are not without arguments. -/
theorem noArguments_blank {as : List Argument} (h : Reader.Accepts noArguments ('(' :: w ++ [')']) as) :
    Blank w := by
  obtain ⟨-, a, t, b, ha, ht, hb, he⟩ := noArguments_text h
  rw [Source.slice_whole_ofChars] at he
  have htight : Tight (a ++ ('(' :: t ++ [')']) ++ b) := he ▸ .of_enclosed w (by decide) (by decide)
  rw [htight.blank_right hb, List.append_nil] at he
  cases a with
  | nil =>
    rw [List.append_cancel_right (List.cons.inj he).2]
    exact ht
  | cons c a => exact absurd (ha '(' ((List.cons.inj he).1 ▸ List.mem_cons_self)) (by decide)

theorem arguments_nil : (reader arguments).Accepts ['(', ')'] [] := by rfl

/-- **Arguments are told apart at their commas.** -/
theorem arguments_iff {ts : List (List Char)} {es : List Expr} (hne : ts ≠ []) (h : List.Forall₂ Reads ts es)
    {as : List Argument} : (reader arguments).Accepts ('(' :: [','].intercalate ts ++ [')']) as ↔
      (2 ≤ ts.length ∨ ∀ t ∈ ts, ',' ∉ t) ∧ as = es.map .value := by
  have hargs : List.Forall₂ (reader argument).Accepts ts (es.map .value) :=
    List.forall₂_map_right_iff.mpr (h.imp fun _ _ => argument_of_reads)
  have hentries : Reader.Accepts (fun src => Rule.entries src '(' ')' (reader argument src))
      ('(' :: [','].intercalate ts ++ [')']) as ↔ _ :=
    Rule.entries_iff argument_local argument_closed (by decide) (by decide) hne hargs
  have hsome : ∀ as', ¬ Reader.Accepts noArguments ('(' :: [','].intercalate ts ++ [')']) as' := by
    intro as' hnone
    cases h with
    | nil => exact hne rfl
    | cons he _ =>
      obtain ⟨c, hc, hc'⟩ := Expr.reads_nonblank he
      exact hc' (noArguments_blank hnone c ((Rule.infix_join List.mem_cons_self).mem hc))
  have hfirst : (reader arguments).Accepts ('(' :: [','].intercalate ts ++ [')']) as ↔
      FirstOf ('(' :: [','].intercalate ts ++ [')'])
        [noArguments, fun src => Rule.entries src '(' ')' (reader argument src)] as := by
    rw [← Rule.oneOf_iff (n := "function-arguments")]
    exact Iff.rfl
  rw [hfirst, ← hentries]
  constructor
  · rintro (h | ⟨-, h | ⟨-, h⟩⟩)
    · exact absurd h (hsome as)
    · exact h
    · cases h
  · exact fun h => .later hsome (.here h)

/-! ### Entries of an object -/

theorem keyValue_local : (reader keyValue).Local := fun w => keyValue_shift w (agree_read w)

theorem keyValue_closed : Rule.AcceptsClosed (reader keyValue) := fun h =>
  Expr.phrase_balanced (keyValue_phrase (Expr.read_sound _) (Nat.le_refl _) h)

theorem keyValue_iff (ht : Tight t) {x : Entry} : (reader keyValue).Accepts t x ↔
    ∃ k e, FirstCut [':'] (Reader.Accepts Token.identifier) Reads t k e ∧ x = .mk k e := by
  have hlocal : Reader.Local Token.identifier := Token.identifier_shift
  have hcut := fun k e => Rule.firstSplit_after (a := k) (b := e) (r := Span.inner ⟨0, t.length⟩) hlocal
    Expr.read_local (List.cons_ne_nil ':' []) (show 1 = [':'].length from rfl) (Nat.le_refl _)
    (by simp only [Span.inner]; omega) (Nat.sub_le _ _) nofun Expr.not_reads_nil
  exact (accepts_bounded ht).trans (split_iff hcut (fun k e h => by simp only [h]) fun h e => by
    simp only [h]
    exact Rule.fail_ne_ok)

/-- A name, a colon and an expression. -/
theorem keyValue_of_reads {k : List Char} {e : Expr} (hk : IsName k) (h : Reads t e) :
    (reader keyValue).Accepts (k ++ ':' :: t) (.mk (String.ofList k) e) := by
  obtain ⟨a, u, b, rfl, ha, hb, hu, h⟩ := Expr.reads_core h
  have ht : Tight (k ++ ':' :: (a ++ u)) := by
    have hjoin := hk.tight.join (':' :: a) hu
    rwa [List.append_assoc, List.cons_append] at hjoin
  have hread : Reads (a ++ u) e := by
    have hpad := (Expr.reads_pad (b := []) ha nofun).mpr h
    rwa [List.append_nil] at hpad
  have hcore : (reader keyValue).Accepts (k ++ ':' :: (a ++ u)) (.mk (String.ofList k) e) := by
    refine (keyValue_iff ht).mpr ⟨_, _, ⟨k, a ++ u, rfl, identifier_of_name hk, hread, ?_⟩, rfl⟩
    intro x' y' he hlt
    -- a colon before the one after the name would belong to the name
    have hbegins : x' ++ [':'] <+: k := by
      refine List.prefix_of_prefix_length_le ⟨y', ?_⟩ (List.prefix_append k (':' :: (a ++ u))) ?_
      · rw [he, List.append_assoc]
      · rw [List.length_append]
        exact hlt
    exact absurd (hbegins.subset (by simp)) (hk.not_mem (c := ':') rfl)
  have htrims : (reader keyValue).Trims := Reader.trims_bounded
  have hpad := (htrims.accepts_pad keyValue_local (a := []) nofun hb ht).mpr hcore
  simpa only [List.nil_append, List.append_assoc, List.cons_append] using hpad

end Form

/-! ### What is read -/

namespace Expr

open Form

variable {f : List Char} {ts : List (List Char)} {e : Expr}

/-- **A name before parentheses is read as a call.** -/
theorem reads_call_iff (hf : IsName f) {i : Bool} {w : List Char} (hw : Balanced i w) :
    Reads (f ++ ('(' :: w ++ [')'])) e ↔
      ∃ as, (reader arguments).Accepts ('(' :: w ++ [')']) as ∧ e = .selector (.call (String.ofList f) as) := by
  have huncut := hf.uncuttable_enclosed hw
  have ht : Tight (f ++ ('(' :: w ++ [')'])) := by
    have hjoin := hf.tight.join [] (.of_enclosed w (show '(' ≠ ' ' by decide) (show ')' ≠ ' ' by decide))
    rwa [List.append_nil] at hjoin
  have hcall := fun x => call_iff hf ht (x := x)
  obtain ⟨c, u, rfl, hc⟩ := hf.exists_cons
  have hother : ∀ (j : Nat) (R : Reader Expr), j ≠ 12 → heads j c = true → readers[j]? = some R →
      ∀ e', ¬ R.Accepts (c :: (u ++ ('(' :: w ++ [')']))) e' := by
    intro j R hj hheads hR e' he'
    rcases heads_nameStart hc hheads with rfl | rfl
    · -- the text is no name, for it holds a parenthesis
      cases hR
      obtain ⟨x, hx, -⟩ := map_eq_ok.mp he'
      obtain ⟨n, hn, -⟩ := map_eq_ok.mp hx
      exact (isName_of_identifier ht hc hn).not_mem (c := '(') rfl (by simp)
    · exact hj rfl
  refine (reads_iff_of_head ht huncut (k := 12) rfl hother).trans ?_
  constructor
  · intro he
    obtain ⟨x, hx, rfl⟩ := map_eq_ok.mp he
    obtain ⟨as, has, rfl⟩ := (hcall x).mp hx
    exact ⟨as, has, rfl⟩
  · rintro ⟨as, has, rfl⟩
    exact map_eq_ok.mpr ⟨_, (hcall _).mpr ⟨as, has, rfl⟩, rfl⟩

/-- **A call is read if its arguments can be told apart.** -/
theorem reads_arguments_iff (hf : IsName f) {es : List Expr} (hne : ts ≠ []) (h : List.Forall₂ Reads ts es) :
    Reads (f ++ ('(' :: [','].intercalate ts ++ [')'])) e ↔
      (2 ≤ ts.length ∨ ∀ t ∈ ts, ',' ∉ t) ∧ e = .selector (.call (String.ofList f) (es.map .value)) := by
  rw [reads_call_iff hf (Rule.balanced_join (R := read) reads_closed h)]
  simp only [arguments_iff hne h]
  constructor
  · rintro ⟨as, ⟨hcomma, rfl⟩, rfl⟩
    exact ⟨hcomma, rfl⟩
  · rintro ⟨hcomma, rfl⟩
    exact ⟨_, ⟨hcomma, rfl⟩, rfl⟩

/-- **An object is read if its entries can be told apart.** -/
theorem reads_hash_iff {xs : List Entry} (hne : ts ≠ []) (h : List.Forall₂ (reader keyValue).Accepts ts xs) :
    Reads ('\x7b' :: [','].intercalate ts ++ ['\x7d']) e ↔
      (2 ≤ ts.length ∨ ∀ t ∈ ts, ',' ∉ t) ∧ e = .selector (.hash xs) := by
  have huncut : Uncuttable ('\x7b' :: [','].intercalate ts ++ ['\x7d']) :=
    .enclosed (Rule.balanced_join keyValue_closed h) rfl
  have hentries : ∀ ys, Reader.Accepts (fun src => Rule.entries src '\x7b' '\x7d' (reader keyValue src))
      ('\x7b' :: [','].intercalate ts ++ ['\x7d']) ys ↔ (2 ≤ ts.length ∨ ∀ t ∈ ts, ',' ∉ t) ∧ ys = xs :=
    fun ys => Rule.entries_iff keyValue_local keyValue_closed (by decide) (by decide) hne h
  refine (reads_iff_of_head (.of_enclosed _ (by decide) (by decide)) huncut (k := 10) rfl ?_).trans ?_
  · intro j R hj hheads _
    have hten : ∀ j < 16, heads j '\x7b' = true → j = 10 := by decide
    exact absurd (hten j (heads_lt hheads) hheads) hj
  · constructor
    · intro he
      obtain ⟨x, hx, rfl⟩ := map_eq_ok.mp he
      obtain ⟨ys, hys, rfl⟩ := map_eq_ok.mp hx
      obtain ⟨hcomma, rfl⟩ := (hentries ys).mp hys
      exact ⟨hcomma, rfl⟩
    · rintro ⟨hcomma, rfl⟩
      exact map_eq_ok.mpr ⟨_, map_eq_ok.mpr ⟨_, (hentries xs).mpr ⟨hcomma, rfl⟩, rfl⟩, rfl⟩

end Expr

/-! ### Calls and objects as they are written -/

/-- A call or an object with the texts of the expressions in it. -/
inductive Sequence
  | call (f : Name) (texts : List String)
  | hash (entries : List (Name × String))

namespace Sequence

/-- The texts of the expressions. -/
def texts : Sequence → List String
  | .call _ texts => texts
  | .hash entries => entries.map (·.2)

/-- How it is written. -/
def text : Sequence → String
  | .call f texts => f.text ++ "(" ++ ",".intercalate texts ++ ")"
  | .hash entries => "\x7b" ++ ",".intercalate (entries.map fun e => e.1.text ++ ":" ++ e.2) ++ "\x7d"

/-- The tree of it, from the trees of its expressions. -/
def tree : Sequence → List Expr → Expr
  | .call f _, es => .selector (.call f.text (es.map .value))
  | .hash entries, es => .selector (.hash (List.zipWith (fun entry e => .mk entry.1.text e) entries es))

theorem toList_call (f : Name) (texts : List String) : (call f texts).text.toList =
    f.text.toList ++ ('(' :: [','].intercalate (texts.map String.toList) ++ [')']) := by
  simp only [text, String.toList_append, String.toList_intercalate, List.append_assoc]
  rfl

/-- The characters of an entry. -/
def entryChars (entry : Name × String) : List Char := entry.1.text.toList ++ ':' :: entry.2.toList

/-- The commas of an entry are those of its text. -/
theorem comma_entryChars (entry : Name × String) : ',' ∈ entryChars entry ↔ ',' ∈ entry.2.toList := by
  have hname : ',' ∉ entry.1.text.toList := entry.1.isName.not_mem rfl
  simp [entryChars, hname]

theorem toList_hash (entries : List (Name × String)) : (hash entries).text.toList =
    '\x7b' :: [','].intercalate (entries.map entryChars) ++ ['\x7d'] := by
  have hentries : (entries.map fun e : Name × String => e.1.text ++ ":" ++ e.2).map String.toList =
      entries.map entryChars := by
    rw [List.map_map]
    refine List.map_congr_left fun e _ => ?_
    simp only [Function.comp_apply, String.toList_append, List.append_assoc]
    rfl
  simp only [text, String.toList_append, String.toList_intercalate, hentries]
  rfl

/-- Each text is at most as long as the whole. -/
theorem length_le (q : Sequence) {t : String} (ht : t ∈ q.texts) : t.toList.length ≤ q.text.toList.length := by
  refine List.IsInfix.length_le ?_
  cases q with
  | call f texts =>
    have hinfix : t.toList <:+: [','].intercalate (texts.map String.toList) := Rule.infix_join (List.mem_map_of_mem ht)
    rw [toList_call]
    exact hinfix.trans ⟨f.text.toList ++ ['('], [')'], by simp⟩
  | hash entries =>
    obtain ⟨entry, hentry, rfl⟩ := List.mem_map.mp ht
    have hsuffix : entry.2.toList <:+: entryChars entry := ⟨entry.1.text.toList ++ [':'], [], by simp [entryChars]⟩
    rw [toList_hash]
    exact (hsuffix.trans (Rule.infix_join (List.mem_map_of_mem hentry))).trans ⟨['\x7b'], ['\x7d'], rfl⟩

end Sequence

namespace Expr

open Form

/-- What is read with budget enough for a longer text is read. -/
theorem reads_of_parse {limits : Limits} {texts : List String} {es : List Expr}
    (hlimit : ∀ t ∈ texts, t.toList.length ≤ limits.maxDepth)
    (h : List.Forall₂ (fun t e => parse limits t = .ok e) texts es) :
    List.Forall₂ (fun t e => Reads (String.toList t) e) texts es := by
  induction h with
  | nil => exact .nil
  | cons he _ ih =>
    refine .cons ((parse_eq_read (hlimit _ List.mem_cons_self)).mp he) (ih fun t ht => ?_)
    exact hlimit t (List.mem_cons_of_mem _ ht)

theorem entries_of_reads {entries : List (Name × String)} {es : List Expr}
    (h : List.Forall₂ (fun entry e => Reads entry.2.toList e) entries es) :
    List.Forall₂ (reader keyValue).Accepts (entries.map Sequence.entryChars)
      (List.zipWith (fun entry e => .mk entry.1.text e) entries es) := by
  induction h with
  | nil => exact .nil
  | @cons entry e _ _ he _ ih =>
    have hentry := keyValue_of_reads entry.1.isName he
    rw [String.ofList_toList] at hentry
    exact .cons hentry ih

/-- **A call or an object is read as the trees of its expressions** if it has two or more
of them, or one without a comma. Else it is refused. -/
theorem parse_sequence {limits : Limits} (q : Sequence) {es : List Expr} {e : Expr} (hne : q.texts ≠ [])
    (hlimit : q.text.length ≤ limits.maxDepth)
    (h : List.Forall₂ (fun t e => parse limits t = .ok e) q.texts es) :
    parse limits q.text = .ok e ↔ (2 ≤ q.texts.length ∨ ∀ t ∈ q.texts, ',' ∉ t.toList) ∧ e = q.tree es := by
  rw [← String.length_toList] at hlimit
  have hreads := reads_of_parse (fun t ht => Nat.le_trans (q.length_le ht) hlimit) h
  rw [parse_eq_read hlimit]
  cases q with
  | call f texts =>
    simp only [Sequence.texts] at hne hreads ⊢
    rw [Sequence.toList_call, reads_arguments_iff f.isName (mt List.map_eq_nil_iff.mp hne)
      (List.forall₂_map_left_iff.mpr hreads), List.length_map, String.ofList_toList, List.forall_mem_map,
      Sequence.tree]
  | hash entries =>
    simp only [Sequence.texts] at hne hreads ⊢
    have hreads' : List.Forall₂ (fun entry e => Reads entry.2.toList e) entries es :=
      (List.forall₂_map_left_iff (R := fun t e => Reads (String.toList t) e)).mp hreads
    have hne' : entries.map Sequence.entryChars ≠ [] := fun h => hne (by rw [List.map_eq_nil_iff.mp h]; rfl)
    rw [Sequence.toList_hash, reads_hash_iff hne' (entries_of_reads hreads'), List.length_map, List.length_map,
      List.forall_mem_map, List.forall_mem_map, Sequence.tree]
    simp only [Sequence.comma_entryChars]

/-- Two arguments, the first of them with a comma in it. -/
theorem parse_sequence_call : parse ⟨12⟩ "f(g(a,b),c)" = .ok (.selector (.call "f"
      [.value (.selector (.call "g" [.value (.selector (.identifier "a")), .value (.selector (.identifier "b"))])),
        .value (.selector (.identifier "c"))])) :=
  (parse_sequence (.call ⟨"f", by decide⟩ ["g(a,b)", "c"]) (nofun) (by decide)
    (.cons (by rfl) (.cons (by rfl) .nil))).mpr ⟨.inl (by decide), rfl⟩

/-- One argument with a comma in it is read alone but not in a call. -/
theorem parse_call_comma : parse ⟨9⟩ "g(a,b)" = .ok (.selector (.call "g"
      [.value (.selector (.identifier "a")), .value (.selector (.identifier "b"))])) ∧
    parse ⟨9⟩ "f(g(a,b))" ≠ .ok (.selector (.call "f" [.value (.selector (.call "g"
      [.value (.selector (.identifier "a")), .value (.selector (.identifier "b"))]))])) :=
  ⟨by rfl, nofun⟩

end Expr

end PathQuery
