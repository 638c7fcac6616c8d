/-
# Texts that no operator cuts

A form that joins two sides cuts its text at a symbol (`Cut`), and the text before the
symbol is closed. In a name, in a text between brackets or quotes, and in the call of a
function, no closed beginning is followed by a character with which such a symbol begins
(`Uncuttable`). What is made of such a text is found by its first character: a form that
does not cut a text accepts it only if that is among the characters that the form begins
with (`Form.heads_or_cut`).

Key definitions: `joints`, `Uncuttable`, `Cut`, `Form.heads`.
Key theorems: `Form.heads_or_cut`, `Expr.reads_of_head`, `Uncuttable.enclosed`,
`Uncuttable.after`, `Cut.readable`.
-/
import PathQuery.Proofs.Precedence
import PathQuery.Proofs.Separation

namespace PathQuery

open Grammar

/-! ### Where texts are cut -/

/-- The characters with which the operators begin. -/
def Operator.heads : List Char := ['<', '=', '>', '!', '|', '&']

/-- The characters with which the symbols begin that stand after an expression. -/
def joints : List Char := '.' :: '[' :: Operator.heads

theorem mem_joints {c : Char} (hc : c ∈ Operator.heads) : c ∈ joints :=
  List.mem_cons_of_mem _ (List.mem_cons_of_mem _ hc)

/-- Whether no closed beginning of a text is followed by a symbol. -/
def Uncuttable (t : List Char) : Prop := ∀ x c y, t = x ++ c :: y → x ≠ [] → Closed x → c ∉ joints

theorem Operator.symbol_head (op : Operator) : ∃ c s, op.symbol.toList = c :: s ∧ c ∈ heads := by
  cases op with
  | compare c => cases c <;> exact ⟨_, _, rfl, by decide⟩
  | _ => exact ⟨_, _, rfl, by decide⟩

namespace Uncuttable

variable {t u p : List Char} {a b c : Char}

/-- A text between brackets. -/
theorem enclosed {i : Bool} (ht : Balanced i t) (hab : Scan.closing? a = some b) : Uncuttable (a :: t ++ [b]) :=
  fun _ _ _ he hx hclosed => absurd hclosed (ht.not_closed_enclosed hab he hx (List.cons_ne_nil _ _))

/-- A text between quotes. -/
theorem quoted (hq : a ∈ Scan.quotes) (ht : Scan.Inside a t) : Uncuttable (a :: t ++ [a]) :=
  fun _ _ _ he hx hclosed => absurd hclosed (Closed.not_closed_quoted hq ht he hx (List.cons_ne_nil _ _))

theorem mem_tail {x y : List Char} (hx : x ≠ []) : c ∈ (x ++ c :: y).tail := by
  obtain ⟨d, x, rfl⟩ := List.exists_cons_of_ne_nil hx
  simp

/-- A text of which at most the first character is a joint. -/
theorem of_tail (h : ∀ c ∈ t.tail, c ∉ joints) : Uncuttable t := by
  rintro x c y rfl hx -
  exact h c (mem_tail hx)

/-- Plain characters before an uncuttable text, of which at most the first is a joint. -/
theorem after (hp : ∀ c ∈ p, isPlain c = true) (hjoint : ∀ c ∈ p.tail, c ∉ joints)
    (ht : Uncuttable (c :: t)) (hc : p ≠ [] → c ∉ joints) : Uncuttable (p ++ c :: t) := by
  intro x d y he hx hclosed
  rcases List.append_eq_append_iff.mp he with ⟨u, rfl, hu⟩ | ⟨u, rfl, hu⟩
  · cases u with
    | nil =>
      obtain ⟨rfl, -⟩ := List.cons.inj hu
      exact hc (by simpa using hx)
    | cons e u =>
      refine ht (e :: u) d y hu (List.cons_ne_nil e u) ?_
      unfold Closed Balanced at hclosed
      rwa [Scan.run_append, show Scan.run false (.code []) p = _ from Balanced.plain hp] at hclosed
  · cases u with
    | nil =>
      obtain ⟨rfl, -⟩ := List.cons.inj hu
      exact hc (by simpa using hx)
    | cons e u =>
      obtain ⟨rfl, -⟩ := List.cons.inj hu
      exact hjoint d (mem_tail hx)

end Uncuttable

/-! ### Cuts -/

open PathQuery.Expr (Reads)

/-- A text with a symbol in it and sides that can be read, and what is made of them. -/
inductive Cut : List Char → Expr → Prop
  | dot {x y : List Char} {l : Expr} {s : Selector} : Reads x l → (Form.reader Form.afterDot).Accepts y s →
      Cut (x ++ '.' :: y) (.dot l s)
  | index {x y : List Char} {l : Expr} {b : Bracket} : Reads x l →
      (Form.reader Form.bracket).Accepts ('[' :: y) b → Cut (x ++ '[' :: y) (.indexOf l b)
  | binary (op : Operator) {x y : List Char} {l r : Expr} : Reads x l → Reads y r →
      Cut (x ++ (op.symbol.toList ++ y)) (.binary op l r)

namespace Cut

variable {t : List Char} {e : Expr}

/-- A cut leaves a closed beginning before its symbol. -/
theorem exists_joint (h : Cut t e) : ∃ x c y, t = x ++ c :: y ∧ x ≠ [] ∧ Closed x ∧ c ∈ joints := by
  cases h with
  | dot hx => exact ⟨_, _, _, rfl, Expr.reads_ne_nil hx, Expr.reads_closed hx, by decide⟩
  | index hx => exact ⟨_, _, _, rfl, Expr.reads_ne_nil hx, Expr.reads_closed hx, by decide⟩
  | @binary op x y _ _ hx =>
    obtain ⟨c, s, hs, hc⟩ := op.symbol_head
    exact ⟨x, c, s ++ y, by rw [hs]; rfl, Expr.reads_ne_nil hx, Expr.reads_closed hx, mem_joints hc⟩

/-- **A text that can be cut can be read**, though perhaps in another way. -/
theorem readable (ht : Tight t) (h : Cut t e) : Expr.Readable t := by
  cases h with
  | dot hx hy =>
    obtain ⟨l, s, hcut⟩ := FirstCut.exists (s := ['.']) (R := (Form.reader Form.afterDot).Accepts) rfl hx hy
    have haccepts := (Form.dotted_iff ht).mpr ⟨l, s, hcut, rfl⟩
    exact Expr.readable_of_accepts ht (List.mem_of_getElem? (i := 0) rfl) haccepts
  | index hx hy =>
    obtain ⟨l, b, hcut⟩ := FirstCut.exists (s := ['['])
      (R := fun y => (Form.reader Form.bracket).Accepts ('[' :: y)) rfl hx hy
    have haccepts := (Form.indexed_iff ht).mpr (.here ((Form.indexedLeft_iff ht).mpr ⟨l, b, hcut, rfl⟩))
    exact Expr.readable_of_accepts ht (List.mem_of_getElem? (i := 1) rfl) haccepts
  | binary op hx hy => exact Expr.Readable.join ⟨_, hx⟩ ⟨_, hy⟩ op

end Cut

theorem Uncuttable.not_cut {t : List Char} {e : Expr} (ht : Uncuttable t) : ¬ Cut t e := fun h => by
  obtain ⟨x, c, y, he, hx, hclosed, hc⟩ := h.exists_joint
  exact ht x c y he hx hclosed hc

/-! ### First characters -/

namespace Form

/-- The characters with which a form begins, unless it needs a cut. -/
def heads : (place : Nat) → Char → Bool
  | 1, c => c == '['
  | 4, c => CharClass.isNameStart c || c == '"'
  | 6, c => c == '!'
  | 7, c => c == '('
  | 8, c => c == '*'
  | 9, c => c == '['
  | 10, c => c == '\x7b'
  | 11, c => c == Token.backtick
  | 12, c => CharClass.isNameStart c
  | 14, c => c == '\''
  | 15, c => c == '@'
  | _, _ => false

variable {c : Char} {u : List Char}

/-- Two forms begin like a name. -/
theorem heads_nameStart {i : Nat} (hc : CharClass.isNameStart c = true) (h : heads i c = true) :
    i = 4 ∨ i = 12 := by
  unfold heads at h
  split at h
  case h_2 => exact .inl rfl
  case h_9 => exact .inr rfl
  case h_12 => cases h
  all_goals
    rw [beq_iff_eq.mp h] at hc
    exact absurd hc (by decide)

theorem heads_lt {i : Nat} (h : heads i c = true) : i < 16 := by
  unfold heads at h
  split at h
  case h_12 => cases h
  all_goals decide

theorem charAt_head (c : Char) (u : List Char) : (Source.ofChars (c :: u)).charAt 0 = some c := by
  rw [Source.charAt_ofChars]
  rfl

/-- What a rule demands of the first character. -/
theorem head_eq_of_bounded {α : Type} (ht : Tight (c :: u)) {rule : String} {f : Source → Span → Except Failure α}
    {a : α} (h : Reader.Accepts (fun src s => Token.bounded src rule s >>= f src) (c :: u) a) {d : Char}
    (hf : ∀ src t, f src t = .ok a → src.charAt t.start = some d) : c = d := by
  have hd := hf _ _ ((accepts_bounded ht).mp h)
  rw [charAt_head] at hd
  exact Option.some.inj hd

theorem head_eq_of_single (ht : Tight (c :: u)) {α : Type} {rule : String} {d : Char} {a b : α}
    (h : Reader.Accepts (fun src => mark src rule d a) (c :: u) b) : c = d := by
  obtain ⟨x, hx, -⟩ := map_eq_ok.mp h
  change Reader.Accepts (fun src => Token.single src rule d) (c :: u) x at hx
  refine head_eq_of_bounded ht hx fun src t h => ?_
  exact (demand_eq_ok.mp h).1

theorem head_eq_of_entries (ht : Tight (c :: u)) {α : Type} {R : Reader α} {a b : Char} {as : List α}
    (h : Reader.Accepts (fun src => Rule.entries src a b (R src)) (c :: u) as) : c = a := by
  have hopen := (Rule.entries_eq_ok.mp h).2.2.1
  rw [Source.trim_tight ht, charAt_head] at hopen
  exact Option.some.inj hopen

/-- A name at the start of a text begins with the first character of it. -/
theorem head_of_name (hc : c ≠ ' ') {stop : Nat} {n : String}
    (h : Token.name (.ofChars (c :: u)) ⟨0, stop⟩ = .ok n) : CharClass.isNameStart c = true := by
  obtain ⟨t, ht, h⟩ := bind_eq_ok.mp h
  obtain ⟨-, rfl⟩ := Token.bounded_eq_ok.mp ht
  have hstart : ((Source.ofChars (c :: u)).trim ⟨0, stop⟩).start = 0 := by
    refine Nat.eq_zero_of_not_pos fun hpos => hc ?_
    have hblank := (Source.ofChars (c :: u)).charAt_before_trim (s := ⟨0, stop⟩) (Nat.le_refl 0) hpos
    rw [charAt_head] at hblank
    exact Option.some.inj hblank
  rw [hstart, charAt_head] at h
  split at h
  · assumption
  · cases h

theorem head_of_quotedName (ht : Tight (c :: u)) {n : String}
    (h : Reader.Accepts Token.quotedName (c :: u) n) : c = '"' := by
  refine head_eq_of_bounded ht h fun src t h => ?_
  exact (demand_eq_ok.mp h).1

theorem head_of_identifier (ht : Tight (c :: u)) {n : String}
    (h : Reader.Accepts Token.identifier (c :: u) n) : CharClass.isNameStart c = true ∨ c = '"' := by
  have hc : c ≠ ' ' := fun hc => ht.head (by rw [hc]; rfl)
  obtain ⟨rule, hrule, h⟩ := Rule.oneOf_eq_ok h
  rcases List.mem_cons.mp hrule with rfl | hrule
  · exact .inl (head_of_name hc h)
  · cases List.mem_singleton.mp hrule
    exact .inr (head_of_quotedName ht h)

theorem head_of_call (ht : Tight (c :: u)) {x : Selector} (h : (reader call).Accepts (c :: u) x) :
    CharClass.isNameStart c = true := by
  have hc : c ≠ ' ' := fun hc => ht.head (by rw [hc]; rfl)
  have h := (accepts_bounded ht).mp h
  simp only at h
  obtain ⟨n, hn, -⟩ := bind_eq_ok.mp (guard_eq_ok.mp h).2
  exact head_of_name hc (functionName_eq_ok.mp hn)

/-- **A form accepts a text that begins as the form does, or cuts it.** -/
theorem heads_or_cut (ht : Tight (c :: u)) {i : Nat} {R : Reader Expr} {e : Expr} (hi : readers[i]? = some R)
    (h : R.Accepts (c :: u) e) : heads i c = true ∨ Cut (c :: u) e := by
  have hlt : i < 16 := (List.getElem?_eq_some_iff.mp hi).1
  match i, hlt with
  | 0, _ =>
    cases hi
    obtain ⟨l, s, ⟨x, y, he, hl, hs, -⟩, rfl⟩ := (dotted_iff ht).mp h
    exact .inr (he ▸ .dot hl hs)
  | 1, _ =>
    cases hi
    rcases (indexed_iff ht).mp h with h | ⟨-, h | ⟨-, h⟩⟩
    · obtain ⟨l, b, ⟨x, y, he, hl, hb, -⟩, rfl⟩ := (indexedLeft_iff ht).mp h
      exact .inr (he ▸ .index hl hb)
    · obtain ⟨b, hb, -⟩ := map_eq_ok.mp h
      change (reader bracket).Accepts (c :: u) b at hb
      refine .inl (beq_iff_eq.mpr (head_eq_of_bounded ht hb fun src t h => ?_))
      exact (demand_eq_ok.mp h).1
    · cases h
  | 2, _ =>
    cases hi
    obtain ⟨x, l, r, ⟨x', y, he, hl, hr, -⟩, rfl, -⟩ := (comparison_iff ht).mp h
    exact .inr (he ▸ .binary (.compare x) hl hr)
  | 3, _ =>
    cases hi
    obtain ⟨l, r, ⟨x, y, he, hl, hr, -⟩, rfl⟩ := (joined_iff ht (by decide)).mp h
    exact .inr (he ▸ .binary .or hl hr)
  | 5, _ =>
    cases hi
    obtain ⟨l, r, ⟨x, y, he, hl, hr, -⟩, rfl⟩ := (joined_iff ht (by decide)).mp h
    exact .inr (he ▸ .binary .and hl hr)
  | 13, _ =>
    cases hi
    obtain ⟨l, r, ⟨x, y, he, hl, hr, -⟩, rfl⟩ := (joined_iff ht (by decide)).mp h
    exact .inr (he ▸ .binary .pipe hl hr)
  | 4, _ =>
    cases hi
    obtain ⟨x, hx, -⟩ := map_eq_ok.mp h
    obtain ⟨n, hn, -⟩ := map_eq_ok.mp hx
    exact .inl (Bool.or_eq_true_iff.mpr ((head_of_identifier ht hn).imp_right beq_iff_eq.mpr))
  | 6, _ =>
    cases hi
    obtain ⟨v, x, he, -⟩ := (negated_iff ht).mp h
    exact .inl (beq_iff_eq.mpr (List.cons.inj he).1)
  | 7, _ =>
    cases hi
    refine .inl (beq_iff_eq.mpr (head_eq_of_bounded ht h fun src t h => ?_))
    exact (demand_eq_ok.mp h).1
  | 8, _ =>
    cases hi
    obtain ⟨x, hx, -⟩ := map_eq_ok.mp h
    exact .inl (beq_iff_eq.mpr (head_eq_of_single ht hx))
  | 9, _ =>
    cases hi
    obtain ⟨x, hx, -⟩ := map_eq_ok.mp h
    obtain ⟨es, hes, -⟩ := map_eq_ok.mp hx
    exact .inl (beq_iff_eq.mpr (head_eq_of_entries (R := Expr.read) ht hes))
  | 10, _ =>
    cases hi
    obtain ⟨x, hx, -⟩ := map_eq_ok.mp h
    obtain ⟨es, hes, -⟩ := map_eq_ok.mp hx
    exact .inl (beq_iff_eq.mpr (head_eq_of_entries (R := reader keyValue) ht hes))
  | 11, _ =>
    cases hi
    obtain ⟨v, hv, -⟩ := map_eq_ok.mp h
    change Reader.Accepts Token.literal (c :: u) v at hv
    refine .inl (beq_iff_eq.mpr (head_eq_of_bounded ht hv fun src t h => ?_))
    exact (demand_eq_ok.mp (guard_eq_ok.mp h).2).1
  | 12, _ =>
    cases hi
    obtain ⟨x, hx, -⟩ := map_eq_ok.mp h
    change (reader call).Accepts (c :: u) x at hx
    exact .inl (head_of_call ht hx)
  | 14, _ =>
    cases hi
    obtain ⟨v, hv, -⟩ := map_eq_ok.mp h
    change Reader.Accepts Token.rawString (c :: u) v at hv
    refine .inl (beq_iff_eq.mpr (head_eq_of_bounded ht hv fun src t h => ?_))
    exact (demand_eq_ok.mp (guard_eq_ok.mp h).2).1
  | 15, _ =>
    cases hi
    exact .inl (beq_iff_eq.mpr (head_eq_of_single ht h))

end Form

namespace Expr

open Form

variable {c : Char} {u : List Char} {e : Expr}

/-- What is read is cut, or begins as one of the forms that accept it does. -/
theorem reads_heads_or_cut (ht : Tight (c :: u)) (h : Reads (c :: u) e) :
    (∃ i R, readers[i]? = some R ∧ R.Accepts (c :: u) e ∧ heads i c = true) ∨ Cut (c :: u) e := by
  obtain ⟨i, R, hR, he, -⟩ := ((reads_iff ht).mp h).place
  exact (heads_or_cut ht hR he).imp_left fun hheads => ⟨i, R, hR, he, hheads⟩

/-- **An uncuttable text is read by the first form that begins with its first character
and accepts it.** -/
theorem reads_of_head (ht : Tight (c :: u)) (huncut : Uncuttable (c :: u)) {k : Nat} {R : Reader Expr}
    (hk : readers[k]? = some R) (he : R.Accepts (c :: u) e)
    (hbefore : ∀ (j : Nat) (R' : Reader Expr), j < k → heads j c = true → readers[j]? = some R' →
      ∀ e', ¬ R'.Accepts (c :: u) e') : Reads (c :: u) e := by
  refine (reads_iff ht).mpr (FirstOf.of_place hk he fun j R' hj hR' e' he' => ?_)
  exact hbefore j R' hj ((heads_or_cut ht hR' he').resolve_right huncut.not_cut) hR' e' he'

/-- The same, if no form before it begins with that character. -/
theorem reads_of_first (ht : Tight (c :: u)) (huncut : Uncuttable (c :: u)) {k : Nat} {R : Reader Expr}
    (hk : readers[k]? = some R) (he : R.Accepts (c :: u) e) (hfirst : ∀ j < k, heads j c = false) :
    Reads (c :: u) e :=
  reads_of_head ht huncut hk he fun j _ hj hheads => absurd hheads (Bool.eq_false_iff.mp (hfirst j hj))

/-- **If no other form accepts it, an uncuttable text is what this form makes of it.** -/
theorem reads_iff_of_head (ht : Tight (c :: u)) (huncut : Uncuttable (c :: u)) {k : Nat} {R : Reader Expr}
    (hk : readers[k]? = some R)
    (hother : ∀ (j : Nat) (R' : Reader Expr), j ≠ k → heads j c = true → readers[j]? = some R' →
      ∀ e', ¬ R'.Accepts (c :: u) e') : Reads (c :: u) e ↔ R.Accepts (c :: u) e := by
  constructor
  · intro h
    obtain ⟨j, R', hR', he, hheads⟩ := (reads_heads_or_cut ht h).resolve_right huncut.not_cut
    by_cases hj : j = k
    · subst hj
      cases hk.symm.trans hR'
      exact he
    · exact absurd he (hother j R' hj hheads hR' e)
  · exact fun h => reads_of_head ht huncut hk h fun j R' hj => hother j R' (Nat.ne_of_lt hj)

end Expr

end PathQuery
