/-
# What each form makes of a text

A budget of the length of the text is never used up (`Expr.rule_eq_read`), so what
is read with it is a relation between texts and trees, `Expr.Reads`. A text with no
space at its ends is read as the first of the forms that accepts it makes of it
(`Expr.reads_iff`), and a form that joins two sides accepts it where it can be cut.

Key definitions: `Expr.read`, `Expr.Reads`, `FirstOf`, `Form.readers`.
Key theorems: `Expr.rule_eq_read`, `Expr.reads_iff`, `Expr.reads_pad`,
`Expr.parse_eq_read`.
-/
import PathQuery.Proofs.Reading

namespace PathQuery

open Grammar

/-! ### With budget enough -/

namespace Expr

/-- The expression of a range, with a level for each character. -/
def read : Reader Expr := fun src s => rule src s.length s.length s

/-- What is read from a text. -/
def Reads (t : List Char) (e : Expr) : Prop := read.Accepts t e

/-- A text is read as one tree only. -/
theorem reads_unique {t : List Char} {e e' : Expr} (h : Reads t e) (h' : Reads t e') : e = e' :=
  Except.ok.inj (h.symm.trans h')

theorem read_local : read.Local := by
  intro src src' k s w
  exact rule_shift w (.inr ⟨Nat.le_refl _, Nat.le_of_eq (Span.shift_length k s).symm⟩)

/-- What is read from a range is read from its text. -/
theorem read_sound (src : Source) : Form.Sound Reads src (read src) := by
  intro s e hs h
  by_cases hle : s.start ≤ s.stop
  · exact (read_local.eq_ok hle hs).mp h
  · have hfail : read src s = .error _ := rule_of_le (Nat.le_of_not_le hle)
    exact nomatch hfail.symm.trans h

/-- **A level for each character is enough.** -/
theorem rule_eq_read {src : Source} {s : Span} {limit budget : Nat} (hs : s.stop ≤ src.size)
    (h : s.length ≤ budget) : rule src limit budget s = read src s := by
  have hread : rule src limit budget (s.shift 0) = Rule.shifted 0 (read src s) :=
    rule_shift (Source.Window.refl hs) (.inr ⟨Nat.le_refl s.length, h⟩)
  rwa [Rule.shifted_zero] at hread

theorem parse_eq_read {limits : Limits} {text : String} {e : Expr}
    (h : text.toList.length ≤ limits.maxDepth) : parse limits text = .ok e ↔ Reads text.toList e := by
  have hsize : (Source.ofString text).size = text.toList.length := rfl
  unfold parse
  by_cases hzero : (Source.ofString text).size = 0
  · simp only [if_pos hzero]
    refine ⟨nofun, fun he => ?_⟩
    have hempty : read (.ofChars text.toList) ⟨0, text.toList.length⟩ = .error _ :=
      rule_of_le (Nat.le_of_eq (hsize.symm.trans hzero))
    exact nomatch hempty.symm.trans he
  · simp only [if_neg hzero]
    rw [rule_eq_read (Nat.le_refl _) (by exact h)]
    rfl

end Expr

/-! ### The first of several -/

/-- What the first of several rules makes of a text that accepts it. -/
inductive FirstOf {α : Type} (t : List Char) : List (Reader α) → α → Prop
  | here {R : Reader α} {Rs : List (Reader α)} {a : α} : R.Accepts t a → FirstOf t (R :: Rs) a
  | later {R : Reader α} {Rs : List (Reader α)} {a : α} : (∀ b, ¬ R.Accepts t b) → FirstOf t Rs a →
      FirstOf t (R :: Rs) a

/-- If one of several rules accepts a text, there is a first that does. -/
theorem FirstOf.exists {α : Type} {t : List Char} : ∀ {Rs : List (Reader α)} {R : Reader α} {a : α},
    R ∈ Rs → R.Accepts t a → ∃ b, FirstOf t Rs b
  | [], _, _, h, _ => nomatch h
  | R' :: Rs, R, a, h, ha => by
    by_cases hb : ∃ b, R'.Accepts t b
    · obtain ⟨b, hb⟩ := hb
      exact ⟨b, .here hb⟩
    · have hmem : R ∈ Rs := by
        rcases List.mem_cons.mp h with rfl | h
        · exact absurd ⟨a, ha⟩ hb
        · exact h
      obtain ⟨b, hfirst⟩ := FirstOf.exists hmem ha
      exact ⟨b, .later (fun b' hb' => hb ⟨b', hb'⟩) hfirst⟩

/-- The first of several rules by its place among them. -/
theorem FirstOf.place {α : Type} {t : List Char} {a : α} : ∀ {Rs : List (Reader α)}, FirstOf t Rs a →
    ∃ (i : Nat) (R : Reader α), Rs[i]? = some R ∧ R.Accepts t a ∧
      ∀ (j : Nat) (R' : Reader α), j < i → Rs[j]? = some R' → ∀ b, ¬ R'.Accepts t b
  | _, .here h => ⟨0, _, rfl, h, nofun⟩
  | _, .later hnone h => by
    obtain ⟨i, R, hR, ha, hbefore⟩ := h.place
    refine ⟨i + 1, R, hR, ha, fun j R' hj hR' => ?_⟩
    cases j with
    | zero =>
      cases hR'
      exact hnone
    | succ j => exact hbefore j R' (by omega) hR'

theorem FirstOf.of_place {α : Type} {t : List Char} {a : α} : ∀ {Rs : List (Reader α)} {i : Nat}
    {R : Reader α}, Rs[i]? = some R → R.Accepts t a →
      (∀ (j : Nat) (R' : Reader α), j < i → Rs[j]? = some R' → ∀ b, ¬ R'.Accepts t b) → FirstOf t Rs a
  | [], _, _, hi, _, _ => nomatch hi
  | _ :: _, 0, _, hi, ha, _ => .here (Option.some.inj hi ▸ ha)
  | R' :: _, _ + 1, _, hi, ha, hbefore =>
    .later (hbefore 0 R' (Nat.zero_lt_succ _) rfl)
      (.of_place hi ha fun j R'' hj => hbefore (j + 1) R'' (Nat.succ_lt_succ hj))

theorem Rule.attempts_iff {α : Type} {t : List Char} {a : α} : ∀ {Rs : List (Reader α)},
    attempts ⟨0, t.length⟩ (Rs.map fun R => R (.ofChars t)) = .ok a ↔ FirstOf t Rs a
  | [] => ⟨nofun, nofun⟩
  | R :: Rs => by
    have ih : attempts ⟨0, t.length⟩ (Rs.map fun R => R (.ofChars t)) = .ok a ↔ FirstOf t Rs a := attempts_iff
    rw [List.map_cons, attempts]
    cases hR : R (.ofChars t) ⟨0, t.length⟩ with
    | ok b =>
      dsimp only
      constructor
      · rintro ⟨⟩
        exact .here hR
      · rintro (h | ⟨h, -⟩)
        · rw [Except.ok.inj (hR.symm.trans h)]
        · exact absurd hR (h b)
    | error f =>
      have hnone : ∀ b, ¬ R.Accepts t b := fun b hb => nomatch hR.symm.trans hb
      dsimp only
      cases hrest : attempts ⟨0, t.length⟩ (Rs.map fun R => R (.ofChars t)) with
      | ok b =>
        rw [hrest] at ih
        constructor
        · exact fun h => .later hnone (ih.mp h)
        · rintro (h | ⟨-, h⟩)
          · exact absurd h (hnone a)
          · exact ih.mpr h
      | error fs =>
        rw [hrest] at ih
        refine ⟨nofun, ?_⟩
        rintro (h | ⟨-, h⟩)
        · exact absurd h (hnone a)
        · exact nomatch ih.mpr h

/-- A choice accepts what the first rule that accepts the text makes of it. -/
theorem Rule.oneOf_iff {α : Type} {t : List Char} {a : α} {n : String} {Rs : List (Reader α)} :
    Reader.Accepts (fun src => oneOf n (Rs.map fun R => R src)) t a ↔ FirstOf t Rs a := by
  rw [← attempts_iff]
  simp only [Reader.Accepts, oneOf]
  cases attempts ⟨0, t.length⟩ (Rs.map fun R => R (.ofChars t)) with
  | ok b =>
    dsimp only
    rw [Except.ok.injEq, Except.ok.injEq]
  | error fs => exact ⟨nofun, nofun⟩

/-! ### The forms -/

namespace Form

/-- A form around expressions that are read with budget enough. -/
abbrev reader {α : Type} (F : Source → Rule Expr → Rule α) : Reader α := fun src => F src (Expr.read src)

theorem agree_read {src src' : Source} {k : Nat} {s : Span} (w : src.Window src' k s) :
    Agree (Expr.read src) (Expr.read src') k s := fun _ hr _ => Expr.read_local (w.mono hr)

/-- The forms, in the order in which they are tried. -/
def readers : List (Reader Expr) :=
  [reader dotted, reader indexed, reader comparison,
    reader fun src nested => joined src nested "or-expression" "||" .or,
    fun src => alone (identifier src),
    reader fun src nested => joined src nested "and-expression" "&&" .and,
    reader negated, reader parenthesised, fun src => alone (star src),
    reader fun src nested => alone (listOf src nested), reader fun src nested => alone (hashOf src nested),
    fun src s => (Token.literal src s).map .literal,
    reader fun src nested => alone (call src nested),
    reader fun src nested => joined src nested "pipe-expression" "|" .pipe,
    fun src s => (Token.rawString src s).map .raw, fun src => mark src "current-node" '@' .current]

theorem all_eq_readers (src : Source) : all src (Expr.read src) = readers.map fun R => R src := rfl

theorem bounded_tight {t : List Char} (ht : Tight t) (rule : String) :
    Token.bounded (.ofChars t) rule ⟨0, t.length⟩ = .ok ⟨0, t.length⟩ := by
  unfold Token.bounded
  rw [if_pos (List.length_pos_iff.mpr ht.ne_nil), Source.trim_tight ht]

/-- A rule that takes the spaces off its range has the whole of a text without any. -/
theorem accepts_bounded {α : Type} {t : List Char} (ht : Tight t) {rule : String}
    {f : Source → Span → Except Failure α} {a : α} :
    Reader.Accepts (fun src s => Token.bounded src rule s >>= f src) t a ↔
      f (.ofChars t) ⟨0, t.length⟩ = .ok a := by
  unfold Reader.Accepts
  simp only [bounded_tight ht]
  exact Iff.rfl

end Form

namespace Expr

/-- **An expression is what the first form that accepts the text makes of it.** -/
theorem reads_iff {t : List Char} {e : Expr} (ht : Tight t) : Reads t e ↔ FirstOf t Form.readers e := by
  have hsize : (Source.ofChars t).size = t.length := rfl
  obtain ⟨n, hn⟩ : ∃ n, t.length = n + 1 :=
    Nat.exists_eq_succ_of_ne_zero (Nat.ne_of_gt (List.length_pos_iff.mpr ht.ne_nil))
  have hagree : Form.Agree (rule (.ofChars t) t.length n) (read (.ofChars t)) 0 ⟨0, t.length⟩ := by
    intro r hr hshort
    have hle := hr.2
    simp only [Span.length] at hshort hle
    rw [Rule.shifted_zero, Span.shift_zero]
    exact (rule_eq_read (by omega) (by simp only [Span.length]; omega)).symm
  have hforms : Rule.oneOf "expression" (Form.readers.map fun R => R (.ofChars t)) ⟨0, t.length⟩ =
      Rule.oneOf "expression" (Form.all (.ofChars t) (rule (.ofChars t) t.length n)) ⟨0, t.length⟩ := by
    rw [← Form.all_eq_readers, ← Rule.shifted_zero (Rule.oneOf _ (Form.all _ (rule _ _ _)) _)]
    exact Rule.oneOf_shift (Form.all_shift (Source.Window.refl (Nat.le_of_eq hsize.symm)) hagree)
  have hread : read (.ofChars t) ⟨0, t.length⟩ = rule (.ofChars t) t.length (n + 1) ⟨0, t.length⟩ := by
    rw [← hn]
    exact (rule_eq_read (Nat.le_of_eq hsize.symm) (Nat.le_refl _)).symm
  rw [← Rule.oneOf_iff (n := "expression")]
  unfold Reads Reader.Accepts
  simp only [hread, hforms, rule, Form.bounded_tight ht]
  exact Iff.rfl

/-- **What holds of all texts that are read.** -/
theorem reads_induction {P : List Char → Expr → Prop} (hP : ∀ t e, Phrase P .expression t e → P t e)
    {t : List Char} {e : Expr} (h : Reads t e) : P t e := by
  have hslice := rule_induction hP (.ofChars t) _ _ ⟨0, t.length⟩ e (Nat.le_refl _) h
  rwa [Source.slice_whole_ofChars] at hslice

theorem reads_nonblank {t : List Char} {e : Expr} (h : Reads t e) : ∃ c ∈ t, c ≠ ' ' :=
  reads_induction (P := fun t _ => ∃ c ∈ t, c ≠ ' ') (fun _ _ h => h.nonblank (fun _ _ => id) trivial) h

theorem read_trims : read.Trims := by
  intro src s hs hstop
  obtain ⟨n, hn⟩ : ∃ n, s.length = n + 1 := ⟨s.length - 1, by simp only [Span.length]; omega⟩
  have htrim := src.trim_inside hs
  have hlen := src.trim_length_le hs
  have hread : read src s = rule src s.length (n + 1) s := by rw [read, ← hn]
  have hread' : read src (src.trim s) = rule src s.length (n + 1) (src.trim s) :=
    (rule_eq_read (Nat.le_trans htrim.2 hstop) (by omega)).symm
  rw [hread, hread']
  exact Reader.trims_bounded
    (f := fun src => Rule.oneOf "expression" (Form.all src (rule src s.length n))) src s hs hstop

/-- A text that is read is one without spaces at its ends between spaces. -/
theorem reads_core {t : List Char} {e : Expr} (h : Reads t e) :
    ∃ a u b, t = a ++ u ++ b ∧ Blank a ∧ Blank b ∧ Tight u ∧ Reads u e := by
  obtain ⟨a, u, b, rfl, ha, hb, hu⟩ := Tight.exists_core (reads_nonblank h)
  exact ⟨a, u, b, rfl, ha, hb, hu, (read_trims.accepts_pad read_local ha hb hu).mp h⟩

/-- **Spaces around a text make no difference.** -/
theorem reads_pad {a t b : List Char} {e : Expr} (ha : Blank a) (hb : Blank b) :
    Reads (a ++ t ++ b) e ↔ Reads t e := by
  by_cases ht : ∃ c ∈ t, c ≠ ' '
  · obtain ⟨a', u, b', rfl, ha', hb', hu⟩ := Tight.exists_core ht
    have hpad := read_trims.accepts_pad read_local (x := e) (List.forall_mem_append.mpr ⟨ha, ha'⟩)
      (List.forall_mem_append.mpr ⟨hb', hb⟩) hu
    rw [show a ++ (a' ++ u ++ b') ++ b = a ++ a' ++ u ++ (b' ++ b) by simp only [List.append_assoc]]
    exact hpad.trans (read_trims.accepts_pad read_local ha' hb' hu).symm
  · constructor
    · intro h
      obtain ⟨c, hc, hne⟩ := reads_nonblank h
      rcases List.mem_append.mp hc with hc | hc
      · rcases List.mem_append.mp hc with hc | hc
        · exact absurd (ha c hc) hne
        · exact absurd ⟨c, hc, hne⟩ ht
      · exact absurd (hb c hc) hne
    · exact fun h => absurd (reads_nonblank h) ht

theorem not_reads_nil (e : Expr) : ¬ Reads [] e := fun h => by simpa using reads_nonblank h

theorem reads_ne_nil {t : List Char} {e : Expr} (h : Reads t e) : t ≠ [] := by
  rintro rfl
  exact not_reads_nil e h

end Expr

namespace Expr

/-- What is read is a phrase of what is read inside it. -/
theorem reads_phrase {t : List Char} {e : Expr} (h : Reads t e) : Phrase Reads .expression t e := by
  obtain ⟨a, u, b, rfl, ha, hb, hu, h⟩ := reads_core h
  obtain ⟨i, R, hR, he, -⟩ := ((reads_iff hu).mp h).place
  have hmem : R (.ofChars u) ∈ Form.all (.ofChars u) (read (.ofChars u)) := by
    rw [Form.all_eq_readers]
    exact List.mem_map_of_mem (f := fun R : Reader Expr => R (.ofChars u)) (List.mem_of_getElem? hR)
  have hphrase := Form.all_phrase (read_sound _) hmem (Nat.le_refl _) he
  rw [Source.slice_whole_ofChars] at hphrase
  exact .spaced ha hb hphrase

end Expr

/-! ### Forms with two sides -/

/-- The place of a comparison in the search. -/
def Comparator.rank (c : Comparator) : Nat := all.idxOf c

namespace Form

open PathQuery.Expr (Reads)

variable {t : List Char} {e : Expr}

theorem afterDot_local : (reader afterDot).Local := fun w => afterDot_shift w (agree_read w)

theorem bracket_local : (reader bracket).Local := fun w => bracket_shift w (agree_read w)

/-- What a split that is found, or is not, leads to. -/
theorem split_iff {α β γ : Type} {o : Option (α × β)} {C : α → β → Prop} {r : Except Failure γ}
    {f : α → β → γ} {c : γ} (hcut : ∀ a b, o = some (a, b) ↔ C a b)
    (hsome : ∀ a b, o = some (a, b) → r = .ok (f a b)) (hnone : o = none → ∀ c, r ≠ .ok c) :
    r = .ok c ↔ ∃ a b, C a b ∧ c = f a b := by
  simp only [← hcut]
  cases o with
  | none => exact ⟨fun h => absurd h (hnone rfl c), nofun⟩
  | some sides =>
    rw [hsome sides.1 sides.2 rfl]
    constructor
    · rintro ⟨⟩
      exact ⟨_, _, rfl, rfl⟩
    · rintro ⟨a, b, ⟨⟩, rfl⟩
      rfl

theorem not_afterDot_nil (x : Selector) : ¬ (reader afterDot).Accepts [] x := by
  intro h
  have hphrase := afterDot_phrase (Expr.read_sound (.ofChars [])) (Nat.le_refl _) h
  rw [Source.slice_whole_ofChars] at hphrase
  simpa using hphrase.nonblank (fun _ _ => Expr.reads_nonblank) trivial

theorem not_bracket_open (b : Bracket) : ¬ (reader bracket).Accepts ['['] b := nofun

theorem dotted_iff (ht : Tight t) : (reader dotted).Accepts t e ↔
    ∃ l x, FirstCut ['.'] Reads (reader afterDot).Accepts t l x ∧ e = .dot l x := by
  have hcut := fun l x => Rule.firstSplit_after (a := l) (b := x) (r := Span.inner ⟨0, t.length⟩)
    Expr.read_local afterDot_local (List.cons_ne_nil '.' []) (show 1 = ['.'].length from rfl) (Nat.le_refl _)
    (by simp only [Span.inner]; omega) (Nat.sub_le _ _) Expr.not_reads_nil not_afterDot_nil
  exact (accepts_bounded ht).trans (split_iff hcut (fun l x h => by simp only [h]) fun h e => by
    simp only [h]
    exact Rule.fail_ne_ok)

theorem indexedLeft_iff (ht : Tight t) : (reader indexedLeft).Accepts t e ↔
    ∃ l b, FirstCut ['['] Reads (fun y => (reader bracket).Accepts ('[' :: y)) t l b ∧ e = .indexOf l b := by
  have hcut := fun l b => Rule.firstSplit_iff (a := l) (b := b) (r := Span.inner ⟨0, t.length⟩)
    Expr.read_local bracket_local (List.cons_ne_nil '[' []) (Nat.zero_le _) (Nat.le_refl _)
    (by simp only [Span.inner]; omega) Expr.not_reads_nil not_bracket_open (Nat.sub_le _ _)
  exact (accepts_bounded ht).trans (split_iff hcut (fun l x h => by simp only [h]) fun h e => by
    simp only [h]
    exact Rule.fail_ne_ok)

/-- Brackets alone are an expression only if no expression stands before them. -/
theorem indexed_iff (ht : Tight t) : (reader indexed).Accepts t e ↔
    FirstOf t [reader indexedLeft, fun src s => (bracket src (Expr.read src) s).map .index] e := by
  rw [← Rule.oneOf_iff (n := "index-expression")]
  exact accepts_bounded ht

theorem joined_iff {rule symbol : String} {op : Operator} (ht : Tight t) (hsymbol : symbol.toList ≠ []) :
    (reader fun src nested => joined src nested rule symbol op).Accepts t e ↔
      ∃ l r, FirstCut symbol.toList Reads Reads t l r ∧ e = .binary op l r := by
  have hcut := fun x y => Rule.firstSplit_after (a := x) (b := y) (r := Span.inner ⟨0, t.length⟩)
    Expr.read_local Expr.read_local hsymbol String.length_toList.symm (Nat.le_refl _)
    (by simp only [Span.inner]; omega) (Nat.sub_le _ _) Expr.not_reads_nil Expr.not_reads_nil
  exact (accepts_bounded ht).trans (split_iff hcut (fun l r h => by simp only [h]) fun h e => by
    simp only [h]
    exact Rule.fail_ne_ok)

/-- A comparison is taken only if no earlier one can be. -/
theorem comparison_iff (ht : Tight t) : (reader comparison).Accepts t e ↔
    ∃ c l r, FirstCut c.symbol.toList Reads Reads t l r ∧ e = .binary (.compare c) l r ∧
      ∀ c' : Comparator, c'.rank < c.rank → ∀ l r, ¬ FirstCut c'.symbol.toList Reads Reads t l r := by
  have hcut : ∀ (c : Comparator) (l r : Expr),
      Rule.firstSplit ⟨0, t.length⟩ ((Source.ofChars t).findAll ⟨0, t.length⟩ c.symbol.toList) c.symbol.length
          (Expr.read (.ofChars t)) (Expr.read (.ofChars t)) = some (l, r) ↔
        FirstCut c.symbol.toList Reads Reads t l r := by
    intro c l r
    have hsymbol : c.symbol.toList ≠ [] := by cases c <;> decide
    exact Rule.firstSplit_after Expr.read_local Expr.read_local hsymbol String.length_toList.symm
      (Nat.zero_le _) (Nat.le_succ _) (Nat.le_refl _) Expr.not_reads_nil Expr.not_reads_nil
  have hsorted : Comparator.all.Pairwise (fun c c' => c.rank < c'.rank) := by decide
  have hmem : ∀ c, c ∈ Comparator.all := fun c => by cases c <;> decide
  refine (accepts_bounded ht).trans ?_
  simp only
  generalize hf : (fun c : Comparator => (Rule.firstSplit ⟨0, t.length⟩
      ((Source.ofChars t).findAll ⟨0, t.length⟩ c.symbol.toList) c.symbol.length
      (Expr.read (.ofChars t)) (Expr.read (.ofChars t))).map fun sides =>
        Expr.binary (.compare c) sides.1 sides.2) = f
  have hsome : ∀ c x, f c = some x ↔ ∃ l r, FirstCut c.symbol.toList Reads Reads t l r ∧
      x = .binary (.compare c) l r := by
    intro c x
    simp only [← hf, ← hcut, Option.map_eq_some_iff, Prod.exists]
    exact exists₂_congr fun l r => and_congr_right fun _ => eq_comm
  have hnone : ∀ c, f c = none ↔ ∀ l r, ¬ FirstCut c.symbol.toList Reads Reads t l r := by
    intro c
    rw [Option.eq_none_iff_forall_ne_some]
    exact ⟨fun h l r hc => h _ ((hsome c _).mpr ⟨l, r, hc, rfl⟩), fun h x hx => by
      obtain ⟨l, r, hc, -⟩ := (hsome c x).mp hx
      exact h l r hc⟩
  have hfirst : Comparator.all.findSome? f = some e ↔ _ := Rule.findSome?_sorted hsorted
  have hchosen : Comparator.all.findSome? f = some e ↔ ∃ c l r, FirstCut c.symbol.toList Reads Reads t l r ∧
      e = .binary (.compare c) l r ∧
        ∀ c' : Comparator, c'.rank < c.rank → ∀ l r, ¬ FirstCut c'.symbol.toList Reads Reads t l r := by
    rw [hfirst]
    constructor
    · rintro ⟨c, -, hc, hbefore⟩
      obtain ⟨l, r, hcut, rfl⟩ := (hsome c e).mp hc
      exact ⟨c, l, r, hcut, rfl, fun c' hlt => (hnone c').mp (hbefore c' (hmem c') hlt)⟩
    · rintro ⟨c, l, r, hcut, rfl, hbefore⟩
      exact ⟨c, hmem c, (hsome c _).mpr ⟨l, r, hcut, rfl⟩, fun c' _ hlt => (hnone c').mpr (hbefore c' hlt)⟩
  rw [← hchosen]
  cases Comparator.all.findSome? f with
  | none => exact ⟨nofun, nofun⟩
  | some x =>
    simp only
    rw [Except.ok.injEq, Option.some.injEq]

/-- A character and what an expression is read from. -/
theorem negated_iff (ht : Tight t) :
    (reader negated).Accepts t e ↔ ∃ u x, t = '!' :: u ∧ Reads u x ∧ e = .not x := by
  refine (accepts_bounded ht).trans ?_
  obtain ⟨c, u, rfl⟩ := List.exists_cons_of_ne_nil ht.ne_nil
  have hhead : (Source.ofChars (c :: u)).charAt 0 = some c := by rw [Source.charAt_ofChars]; rfl
  have hrest : ∀ x, Expr.read (.ofChars (c :: u)) ⟨1, (c :: u).length⟩ = .ok x ↔ Reads u x := by
    intro x
    rw [Expr.read_local.eq_ok (by simp) (Nat.le_refl _), Source.slice_ofChars]
    simp [Reads]
  simp only [hhead]
  by_cases hc : c = '!'
  · subst hc
    rw [if_neg (not_not_intro rfl)]
    constructor
    · intro h
      obtain ⟨x, hx, rfl⟩ := map_eq_ok.mp h
      exact ⟨u, x, rfl, (hrest x).mp hx, rfl⟩
    · rintro ⟨u', x, ⟨⟩, hx, rfl⟩
      exact map_eq_ok.mpr ⟨x, (hrest x).mpr hx, rfl⟩
  · rw [if_pos (fun h => hc (Option.some.inj h))]
    exact ⟨nofun, fun ⟨_, _, h, _⟩ => absurd (List.cons.inj h).1 hc⟩

/-- Parentheses and what an expression is read from between them. -/
theorem parenthesised_iff (ht : Tight t) :
    (reader parenthesised).Accepts t e ↔ ∃ u x, t = '(' :: u ++ [')'] ∧ Reads u x ∧ e = .paren x := by
  refine (accepts_bounded ht).trans ?_
  have hinner : ∀ x, Expr.read (.ofChars t) (Span.inner ⟨0, t.length⟩) = .ok x →
      Reads ((Source.ofChars t).slice (Span.inner ⟨0, t.length⟩)) x :=
    fun x => Expr.read_sound (.ofChars t) _ x (Nat.sub_le _ _)
  constructor
  · intro h
    obtain ⟨hopen, h⟩ := demand_eq_ok.mp h
    obtain ⟨hclose, h⟩ := guard_eq_ok.mp h
    obtain ⟨hlen, hclose⟩ := not_or.mp hclose
    obtain ⟨x, hx, rfl⟩ := map_eq_ok.mp h
    refine ⟨_, x, ?_, hinner x hx, rfl⟩
    have henclosed := (Source.ofChars t).slice_enclosed (Nat.le_of_not_lt hlen) hopen
      (Decidable.not_not.mp hclose)
    rwa [Source.slice_whole_ofChars] at henclosed
  · rintro ⟨u, x, rfl, hx, rfl⟩
    have hlen : ¬ (⟨0, ('(' :: u ++ [')']).length⟩ : Span).length < 2 := by simp [Span.length]
    have hopen : (Source.ofChars ('(' :: u ++ [')'])).charAt 0 = some '(' := by rw [Source.charAt_ofChars]; rfl
    have hclose := Source.charAt_closing (a := '(') (b := ')') u
    have hread : Expr.read (.ofChars ('(' :: u ++ [')'])) (Span.inner ⟨0, ('(' :: u ++ [')']).length⟩) = .ok x := by
      rw [Expr.read_local.eq_ok (by simp [Span.inner]) (Nat.sub_le _ _), Source.slice_inner]
      exact hx
    simp only [hopen, hclose, hlen, hread, ne_eq, not_true, or_false, if_false]
    rfl

end Form

end PathQuery
