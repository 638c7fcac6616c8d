/-
# Brackets, quotes and commas

A scan of a text from left to right keeps the brackets that are still open, passes
over quoted text, where a backslash takes the next character with it, and refuses a
closing bracket that does not belong to the one opened last. A text is closed if the
scan ends where it began and meets no comma outside all brackets and quotes. Every
text that is read is closed (`Expr.reads_closed`). So a comma never follows a closed
beginning of one, and no proper beginning of a text between brackets is closed.

Key definitions: `Scan`, `Scan.step`, `Scan.run`, `Balanced`, `Closed`.
Key theorems: `Scan.run_within`, `Balanced.enclosed`, `Balanced.not_closed_enclosed`,
`Closed.eq_of_comma`, `Grammar.Phrase.balanced`, `Expr.reads_closed`.
-/
import PathQuery.Proofs.Forms

namespace PathQuery

/-! ### The scan -/

/-- Where a scan stands: outside quotes, between quotes, or after a backslash there.
The stack holds the brackets that are to come, the next one first. -/
inductive Scan
  | code (stack : List Char)
  | quoted (quote : Char) (stack : List Char)
  | escaped (quote : Char) (stack : List Char)
deriving DecidableEq, Repr

namespace Scan

/-- The quotes. -/
def quotes : List Char := ['\'', '"', Token.backtick]

/-- The bracket that closes another. -/
def closing? (c : Char) : Option Char :=
  if c = '(' then some ')' else if c = '[' then some ']' else if c = '\x7b' then some '\x7d' else none

/-- The closing brackets. -/
def closings : List Char := [')', ']', '\x7d']

/-- The three pairs of brackets. -/
theorem closing?_eq_some {a b : Char} (h : closing? a = some b) :
    a = '(' ∧ b = ')' ∨ a = '[' ∧ b = ']' ∨ a = '\x7b' ∧ b = '\x7d' := by
  unfold closing? at h
  split at h
  · rename_i ha
    exact .inl ⟨ha, (Option.some.inj h).symm⟩
  · split at h
    · rename_i ha
      exact .inr (.inl ⟨ha, (Option.some.inj h).symm⟩)
    · split at h
      · rename_i ha
        exact .inr (.inr ⟨ha, (Option.some.inj h).symm⟩)
      · cases h

/-- The scan after one more character. Commas may be allowed outside all brackets. -/
def step (commas : Bool) : Scan → Char → Option Scan
  | .code stack, c =>
    if c ∈ quotes then some (.quoted c stack)
    else
      match closing? c with
      | some d => some (.code (d :: stack))
      | none =>
        if c ∈ closings then
          match stack with
          | [] => none
          | d :: stack => if c = d then some (.code stack) else none
        else if c = ',' ∧ stack = [] ∧ commas = false then none
        else some (.code stack)
  | .quoted q stack, c =>
    if c = '\\' then some (.escaped q stack)
    else if c = q then some (.code stack)
    else some (.quoted q stack)
  | .escaped q stack, _ => some (.quoted q stack)

/-- The scan after a text. -/
def run (commas : Bool) : Scan → List Char → Option Scan
  | m, [] => some m
  | m, c :: t => (step commas m c).bind fun m => run commas m t

theorem run_append (commas : Bool) : ∀ (t u : List Char) (m : Scan),
    run commas m (t ++ u) = (run commas m t).bind fun m => run commas m u
  | [], _, _ => rfl
  | c :: t, u, m => by
    rw [List.cons_append, run, run]
    cases step commas m c with
    | none => rfl
    | some m => exact run_append commas t u m

/-- A scan inside more brackets. -/
def within (base : List Char) : Scan → Scan
  | .code stack => .code (stack ++ base)
  | .quoted q stack => .quoted q (stack ++ base)
  | .escaped q stack => .escaped q (stack ++ base)

theorem step_within {base : List Char} {i j : Bool} (hb : base ≠ [] ∨ i = false ∨ j = true) {m m' : Scan}
    {c : Char} (h : step i m c = some m') : step j (m.within base) c = some (m'.within base) := by
  cases m with
  | code stack =>
    simp only [step, within] at h ⊢
    split at h
    · rename_i hq
      cases h
      rw [if_pos hq]
    · rename_i hq
      rw [if_neg hq]
      split at h
      · rename_i d hd
        cases h
        rfl
      · split at h
        · rename_i hc
          rw [if_pos hc]
          split at h
          · cases h
          · split at h
            · rename_i hd
              cases h
              exact if_pos hd
            · cases h
        · rename_i hc
          rw [if_neg hc]
          split at h
          · cases h
          · rename_i hcomma
            cases h
            refine if_neg fun ⟨h1, h2, h3⟩ => hcomma ⟨h1, (List.append_eq_nil_iff.mp h2).1, ?_⟩
            rcases hb with hb | hb | hb
            · exact absurd (List.append_eq_nil_iff.mp h2).2 hb
            · exact hb
            · exact absurd (h3.symm.trans hb) (by decide)
  | quoted q stack =>
    simp only [step, within] at h ⊢
    by_cases h1 : c = '\\'
    · rw [if_pos h1] at h ⊢
      cases h
      rfl
    · rw [if_neg h1] at h ⊢
      by_cases h2 : c = q
      · rw [if_pos h2] at h ⊢
        cases h
        rfl
      · rw [if_neg h2] at h ⊢
        cases h
        rfl
  | escaped q stack =>
    cases h
    rfl

/-- Between quotes a character stands for itself, but for the quote and the backslash. -/
theorem run_quoted {commas : Bool} {q c : Char} {stack t : List Char} (hc : c ≠ '\\') (hq : c ≠ q) :
    run commas (.quoted q stack) (c :: t) = run commas (.quoted q stack) t := by
  rw [run, step, if_neg hc, if_neg hq, Option.bind_some]

/-- A text that stays between its quotes. -/
inductive Inside (q : Char) : List Char → Prop
  | nil : Inside q []
  | plain {c : Char} {t : List Char} : c ≠ '\\' → c ≠ q → Inside q t → Inside q (c :: t)
  | escaped {c : Char} {t : List Char} : Inside q t → Inside q ('\\' :: c :: t)

theorem Inside.run {q : Char} {t : List Char} (h : Inside q t) (commas : Bool) (stack : List Char) :
    Scan.run commas (.quoted q stack) t = some (.quoted q stack) := by
  induction h with
  | nil => rfl
  | plain hc hq _ ih => rwa [run_quoted hc hq]
  | escaped _ ih => exact ih

/-- A scan does not leave the quotes on its way. -/
theorem Inside.run_ne_code {q : Char} {t : List Char} (h : Inside q t) (commas : Bool) (stack : List Char) :
    ∀ {x y : List Char}, t = x ++ y → ∀ stack', Scan.run commas (.quoted q stack) x ≠ some (.code stack') := by
  induction h with
  | nil =>
    intro x y he stack'
    obtain ⟨rfl, -⟩ := List.append_eq_nil_iff.mp he.symm
    exact nofun
  | plain hc hq _ ih =>
    intro x y he stack'
    cases x with
    | nil => exact nofun
    | cons d x =>
      simp only [List.cons_append, List.cons.injEq] at he
      obtain ⟨rfl, he⟩ := he
      rw [run_quoted hc hq]
      exact ih he stack'
  | escaped _ ih =>
    intro x y he stack'
    match x with
    | [] => exact nofun
    | [d] =>
      simp only [List.cons_append, List.cons.injEq] at he
      obtain ⟨rfl, -⟩ := he
      exact nofun
    | d :: d' :: x =>
      simp only [List.cons_append, List.cons.injEq] at he
      obtain ⟨rfl, rfl, he⟩ := he
      exact ih he stack'

/-- **A scan goes on inside more brackets as it did outside.** -/
theorem run_within {base : List Char} {i j : Bool} (hb : base ≠ [] ∨ i = false ∨ j = true) :
    ∀ {t : List Char} {m m' : Scan}, run i m t = some m' → run j (m.within base) t = some (m'.within base)
  | [], m, m', h => by
    cases h
    rfl
  | c :: t, m, m', h => by
    obtain ⟨m₁, hstep, hrun⟩ := Option.bind_eq_some_iff.mp h
    rw [run, step_within hb hstep]
    exact run_within hb hrun

end Scan

/-! ### Closed texts -/

/-- Whether a scan of a text ends where it began. -/
def Balanced (commas : Bool) (t : List Char) : Prop := Scan.run commas (.code []) t = some (.code [])

/-- Whether a text is balanced and has no comma outside all brackets and quotes. -/
abbrev Closed (t : List Char) : Prop := Balanced false t

instance (commas : Bool) (t : List Char) : Decidable (Balanced commas t) :=
  inferInstanceAs (Decidable (_ = _))

/-- A character that means nothing to the scan. -/
def isPlain (c : Char) : Bool :=
  !(Scan.quotes.contains c || (Scan.closing? c).isSome || Scan.closings.contains c || c == ',')

namespace Balanced

variable {i : Bool} {t u : List Char}

theorem nil : Balanced i [] := rfl

theorem append (ht : Balanced i t) (hu : Balanced i u) : Balanced i (t ++ u) := by
  unfold Balanced
  rw [Scan.run_append, ht]
  exact hu

/-- A balanced text leaves the brackets around it alone. -/
theorem run_inside (ht : Balanced i t) (d : Char) (stack : List Char) (j : Bool) :
    Scan.run j (.code (d :: stack)) t = some (.code (d :: stack)) :=
  Scan.run_within (.inl (List.cons_ne_nil d stack)) ht

theorem mono (ht : Balanced i t) : Balanced true t := by
  have hover : Scan.run true ((Scan.code []).within []) t = some ((Scan.code []).within []) :=
    Scan.run_within (.inr (.inr rfl)) ht
  exact hover

theorem step_plain {c : Char} (hc : isPlain c = true) (stack : List Char) :
    Scan.step i (.code stack) c = some (.code stack) := by
  simp only [isPlain, Bool.not_eq_true', Bool.or_eq_false_iff, Option.isSome_eq_false_iff,
    Option.isNone_iff_eq_none, List.contains_eq_mem, decide_eq_false_iff_not, beq_eq_false_iff_ne] at hc
  obtain ⟨⟨⟨hq, ho⟩, hc⟩, hcomma⟩ := hc
  simp only [Scan.step, if_neg hq, ho, if_neg hc]
  exact if_neg fun h => hcomma h.1

theorem plain : ∀ {t : List Char}, (∀ c ∈ t, isPlain c = true) → Balanced i t
  | [], _ => rfl
  | c :: t, h => by
    unfold Balanced
    rw [Scan.run, step_plain (h c List.mem_cons_self)]
    exact plain fun d hd => h d (List.mem_cons_of_mem c hd)

theorem comma (ht : Balanced true t) (hu : Balanced true u) : Balanced true (t ++ ',' :: u) :=
  ht.append (append (t := [',']) rfl hu)

theorem run_opening {a b : Char} (hab : Scan.closing? a = some b) (x : List Char) :
    Scan.run false (.code []) (a :: x) = Scan.run false (.code [b]) x := by
  rcases Scan.closing?_eq_some hab with ⟨rfl, rfl⟩ | ⟨rfl, rfl⟩ | ⟨rfl, rfl⟩ <;> rfl

/-- A balanced text between brackets is closed, whatever commas it has. -/
theorem enclosed (ht : Balanced i t) {a b : Char} (hab : Scan.closing? a = some b) : Closed (a :: t ++ [b]) := by
  have hclose : Scan.run false (.code [b]) [b] = some (.code []) := by
    rcases Scan.closing?_eq_some hab with ⟨-, rfl⟩ | ⟨-, rfl⟩ | ⟨-, rfl⟩ <;> rfl
  unfold Closed Balanced
  rw [List.cons_append, run_opening hab, Scan.run_append, ht.run_inside]
  exact hclose

/-- No proper beginning of a text between brackets is closed. -/
theorem not_closed_enclosed (ht : Balanced i t) {a b : Char} (hab : Scan.closing? a = some b) {x y : List Char}
    (he : a :: t ++ [b] = x ++ y) (hx : x ≠ []) (hy : y ≠ []) : ¬ Closed x := by
  intro hclosed
  obtain ⟨c, x, rfl⟩ := List.exists_cons_of_ne_nil hx
  simp only [List.cons_append, List.cons.injEq] at he
  obtain ⟨rfl, he⟩ := he
  rcases List.eq_nil_or_concat y with rfl | ⟨y, d, rfl⟩
  · exact hy rfl
  · rw [List.concat_eq_append, ← List.append_assoc] at he
    obtain ⟨rfl, -⟩ := List.append_inj' he rfl
    unfold Balanced at ht
    rw [Scan.run_append] at ht
    obtain ⟨m, hm, -⟩ := Option.bind_eq_some_iff.mp ht
    have hover := Scan.run_within (j := false) (.inl (List.cons_ne_nil b [])) hm
    have hstack : m.within [b] = .code [] := by
      unfold Closed Balanced at hclosed
      rw [run_opening hab] at hclosed
      exact Option.some.inj (hover.symm.trans hclosed)
    cases m with
    | code stack => simp [Scan.within] at hstack
    | quoted q stack => cases hstack
    | escaped q stack => cases hstack

end Balanced

namespace Closed

variable {x y t z : List Char}

/-- A text that stays between its quotes is closed with them. -/
theorem quoted {q : Char} (hq : q ∈ Scan.quotes) (h : Scan.Inside q t) : Closed (q :: t ++ [q]) := by
  have hopen : Scan.step false (.code []) q = some (.quoted q []) := if_pos hq
  have hne : q ≠ '\\' := by
    rintro rfl
    exact absurd hq (by decide)
  have hclose : Scan.step false (.quoted q []) q = some (.code []) := by rw [Scan.step, if_neg hne, if_pos rfl]
  unfold Closed Balanced
  rw [List.cons_append, Scan.run, hopen, Option.bind_some, Scan.run_append, h.run, Option.bind_some, Scan.run, hclose]
  rfl

/-- No proper beginning of a text between quotes is closed. -/
theorem not_closed_quoted {q : Char} (hq : q ∈ Scan.quotes) (h : Scan.Inside q t) (he : q :: t ++ [q] = x ++ y)
    (hx : x ≠ []) (hy : y ≠ []) : ¬ Closed x := by
  intro hclosed
  have hopen : Scan.step false (.code []) q = some (.quoted q []) := if_pos hq
  obtain ⟨c, x, rfl⟩ := List.exists_cons_of_ne_nil hx
  simp only [List.cons_append, List.cons.injEq] at he
  obtain ⟨rfl, he⟩ := he
  rcases List.eq_nil_or_concat y with rfl | ⟨y, d, rfl⟩
  · exact hy rfl
  · rw [List.concat_eq_append, ← List.append_assoc] at he
    obtain ⟨ht, -⟩ := List.append_inj' he rfl
    unfold Closed Balanced at hclosed
    rw [Scan.run, hopen] at hclosed
    exact h.run_ne_code false [] ht [] hclosed

/-- What follows a closed beginning of a closed text is closed. -/
theorem of_append (hx : Closed x) (h : Closed (x ++ y)) : Closed y := by
  unfold Closed Balanced at h hx
  rwa [Scan.run_append, hx] at h

/-- What the scan refuses does not follow a closed text. -/
theorem not_closed_append (hx : Closed x) {c : Char} (hc : Scan.step false (.code []) c = none) :
    ¬ Closed (x ++ c :: y) := by
  intro h
  unfold Closed Balanced at h hx
  rw [Scan.run_append, hx] at h
  simp [Scan.run, hc] at h

/-- **The comma after a closed text is found only once.** -/
theorem eq_of_comma (hx : Closed x) (ht : Closed t) (h : x ++ ',' :: y = t ++ ',' :: z) : x = t ∧ y = z := by
  rcases List.append_eq_append_iff.mp h with ⟨u, rfl, hu⟩ | ⟨u, rfl, hu⟩
  · cases u with
    | nil => simpa using hu
    | cons c u =>
      obtain ⟨rfl, -⟩ := List.cons.inj hu
      exact absurd ht (hx.not_closed_append rfl)
  · cases u with
    | nil => simpa [eq_comm] using hu
    | cons c u =>
      obtain ⟨rfl, -⟩ := List.cons.inj hu
      exact absurd hx (ht.not_closed_append rfl)

end Closed

/-! ### What is read is closed -/

namespace Grammar

/-- Whether commas may stand in a part outside all brackets. -/
def Part.commas : Part → Bool
  | .sequence _ => true
  | _ => false

theorem QuotedBody.inside {t s : List Char} (h : QuotedBody t s) : Scan.Inside '"' t := by
  induction h with
  | nil => exact .nil
  | plain hc _ ih =>
    exact .plain (by rintro rfl; exact absurd hc (by decide)) (by rintro rfl; exact absurd hc (by decide)) ih
  | escaped _ _ ih => exact .escaped ih
  | codePoint hx _ ih =>
    have hhex : ∀ c, CharClass.isHexDigit c = true → c ≠ '\\' ∧ c ≠ '"' := fun c hc =>
      ⟨by rintro rfl; exact absurd hc (by decide), by rintro rfl; exact absurd hc (by decide)⟩
    simp only [List.all_cons, List.all_nil, Bool.and_true, Bool.and_eq_true] at hx
    obtain ⟨h1, h2, h3, h4⟩ := hx
    exact .escaped (.plain (hhex _ h1).1 (hhex _ h1).2 (.plain (hhex _ h2).1 (hhex _ h2).2
      (.plain (hhex _ h3).1 (hhex _ h3).2 (.plain (hhex _ h4).1 (hhex _ h4).2 ih))))

theorem RawBody.inside {t s : List Char} (h : RawBody t s) : Scan.Inside '\'' t := by
  induction h with
  | nil => exact .nil
  | plain hc _ ih =>
    exact .plain (by rintro rfl; exact absurd hc (by decide)) (by rintro rfl; exact absurd hc (by decide)) ih
  | escaped _ _ ih => exact .escaped ih
  | kept _ _ ih => exact .escaped ih

theorem LiteralBody.inside {t s : List Char} (h : LiteralBody t s) : Scan.Inside Token.backtick t := by
  induction h with
  | nil => exact .nil
  | plain hc hb _ ih => exact .plain hc hb ih
  | escaped _ ih => exact .escaped ih
  | kept _ _ ih => exact .escaped ih

theorem isPlain_of_isNameChar {c : Char} (h : CharClass.isNameChar c = true) : isPlain c = true := by
  refine Decidable.not_not.mp fun hc => ?_
  simp only [isPlain, Bool.not_eq_true', Bool.not_eq_false, Bool.or_eq_true, List.contains_iff_mem, beq_iff_eq,
    Scan.quotes, Scan.closings, List.mem_cons, List.not_mem_nil, or_false, Option.isSome_iff_exists] at hc
  rcases hc with ((hc | ⟨b, hb⟩) | hc) | hc
  · rcases hc with rfl | rfl | rfl <;> exact absurd h (by decide)
  · rcases Scan.closing?_eq_some hb with ⟨rfl, -⟩ | ⟨rfl, -⟩ | ⟨rfl, -⟩ <;> exact absurd h (by decide)
  · rcases hc with rfl | rfl | rfl <;> exact absurd h (by decide)
  · subst hc
    exact absurd h (by decide)

theorem isNameChar_of_isNameStart {c : Char} (h : CharClass.isNameStart c = true) :
    CharClass.isNameChar c = true := by
  simp only [CharClass.isNameStart, CharClass.isNameChar, Char.isAlphanum, Bool.or_eq_true] at h ⊢
  exact h.imp_left .inl

theorem closed_digits {t : List Char} (h : t.all Char.isDigit = true) : Closed t := by
  refine .plain fun c hc => isPlain_of_isNameChar ?_
  have hdigit := List.all_eq_true.mp h c hc
  simp only [CharClass.isNameChar, Char.isAlphanum, hdigit, Bool.or_true, Bool.true_or]

theorem balanced_blank {i : Bool} {a : List Char} (ha : Blank a) : Balanced i a :=
  .plain fun c hc => by rw [ha c hc]; decide

theorem closed_symbol (op : Operator) : Closed op.symbol.toList := by
  cases op with
  | compare c => cases c <;> decide
  | _ => decide

/-- **A phrase is balanced** if the expressions inside it are closed, and closed if it is
no sequence. -/
theorem Phrase.balanced {P : List Char → Expr → Prop} (hP : ∀ t e, P t e → Closed t) {part : Part}
    {t : List Char} {x : part.Tree} (h : Phrase P part t x) : Balanced part.commas t := by
  induction h with
  | nested h => exact hP _ _ h
  | spaced ha hb _ ih => exact ((balanced_blank ha).append ih).append (balanced_blank hb)
  | one _ ih => exact ih.mono
  | more _ _ ih ihs => exact ih.mono.comma ihs
  | dot h _ ih => exact (hP _ _ h).append (.append (t := ['.']) rfl ih)
  | indexOf h _ ih => exact (hP _ _ h).append ih
  | index _ ih => exact ih
  | binary hl hr => exact .append (.append (hP _ _ hl) (closed_symbol _)) (hP _ _ hr)
  | not h => exact .append (t := ['!']) rfl (hP _ _ h)
  | paren h => exact (hP _ _ h).enclosed rfl
  | literal h _ => exact Closed.quoted (by decide) h.inside
  | raw h => exact Closed.quoted (by decide) h.inside
  | current => rfl
  | alone _ ih => exact ih
  | named _ ih => exact ih
  | all _ ih => exact ih
  | list _ ih => exact ih.enclosed rfl
  | hash _ ih => exact ih.enclosed rfl
  | call _ _ ih ihs => exact ih.append ihs
  | star => rfl
  | noArguments h => exact (balanced_blank (i := true) h).enclosed rfl
  | arguments _ ih => exact ih.enclosed rfl
  | value h => exact hP _ _ h
  | reference h => exact .append (t := ['&']) rfl (hP _ _ h)
  | keyValue _ h ih => exact ih.append (.append (t := [':']) rfl (hP _ _ h))
  | flatten => rfl
  | place _ ih => exact ih.enclosed rfl
  | every _ ih => exact ih.enclosed rfl
  | slice _ ih => exact ih.enclosed rfl
  | filter h => exact Balanced.enclosed (.append (t := ['?']) rfl (hP _ _ h)) rfl
  | twoBounds _ _ ih ih' => exact ih.append (.append (t := [':']) rfl ih')
  | threeBounds _ _ _ ih ih' ih'' =>
    exact ih.append (.append (t := [':']) rfl (ih'.append (.append (t := [':']) rfl ih'')))
  | noBound h => exact balanced_blank h
  | bound _ ih => exact ih
  | number h =>
    obtain ⟨digits, -, hall, ⟨rfl, -⟩ | ⟨rfl, -⟩⟩ := h
    · exact closed_digits hall
    · exact .append (t := ['-']) rfl (closed_digits hall)
  | unquoted _ ih => exact ih
  | quoted _ h => exact Closed.quoted (by decide) h.inside
  | name hc h =>
    refine .plain (List.forall_mem_cons.mpr ⟨isPlain_of_isNameChar ?_, fun c hc => ?_⟩)
    · exact isNameChar_of_isNameStart hc
    · exact isPlain_of_isNameChar (List.all_eq_true.mp h c hc)

end Grammar

namespace Expr

open Grammar

/-- **What is read is closed.** -/
theorem reads_closed {t : List Char} {e : Expr} (h : Reads t e) : Closed t :=
  reads_induction (P := fun t _ => Closed t) (fun _ _ h => h.balanced fun _ _ => id) h

/-- A text is balanced if it is a phrase of what is read inside it. -/
theorem phrase_balanced {part : Part} {x : part.Tree} {t : List Char}
    (h : Phrase Reads part ((Source.ofChars t).slice ⟨0, t.length⟩) x) : Balanced part.commas t := by
  rw [Source.slice_whole_ofChars] at h
  exact h.balanced fun _ _ => reads_closed

end Expr

end PathQuery
