/-
# Parentheses pin the tree

A text that begins with parentheses and does not end with them is cut, and no cut lies
inside the parentheses (`Cut.after_parens`). Where an operator with both its operands in
parentheses could be cut is then in its own symbol, and of the places there only the first
leaves a text that can be read on both sides. So each operator, dot and bracket whose
operands stand in parentheses is read as itself, whatever form is tried before it, and
with it, by induction, every tree that is written so (`Term.parse_text`).

Key definitions: `Term`, `Term.chars`, `Term.pinned`.
Key theorems: `Expr.cut_of_reads`, `Cut.after_parens`, `Expr.reads_operator`,
`Term.reads`, `Term.parse_text`.
-/
import PathQuery.Proofs.Written

namespace PathQuery

open Grammar
open PathQuery.Expr (Reads)

/-- A text in parentheses. -/
abbrev parens (t : List Char) : List Char := '(' :: t ++ [')']

theorem tight_parens (t : List Char) : Tight (parens t) := .of_enclosed t (by decide) (by decide)

variable {i : Bool} {t u v x y : List Char} {c : Char} {e l r : Expr}

/-! ### Symbols -/

namespace Operator

theorem symbol_inj {op op' : Operator} (h : op.symbol.toList = op'.symbol.toList) : op = op' := by
  have hcompare : ∀ c c' : Comparator, c.symbol = c'.symbol → c = c' := by
    intro c c' h
    have hc := Comparator.ofSymbol?_symbol c
    rw [h, Comparator.ofSymbol?_symbol] at hc
    exact (Option.some.inj hc).symm
  cases op with
  | compare c =>
    cases op' with
    | compare c' => exact congrArg compare (hcompare c c' (String.toList_inj.mp h))
    | _ => cases c <;> exact absurd h (by decide)
  | _ =>
    cases op' with
    | compare c => cases c <;> exact absurd h (by decide)
    | _ => first | rfl | exact absurd h (by decide)

/-- A symbol is made of the characters with which operators begin. -/
theorem mem_heads (op : Operator) (hc : c ∈ op.symbol.toList) : c ∈ heads := by
  have hall : op.symbol.toList.all heads.contains = true := by
    cases op with
    | compare c => cases c <;> decide
    | _ => decide
  exact List.contains_iff_mem.mp (List.all_eq_true.mp hall c hc)

/-- The characters that stand second in a symbol. -/
def tails : List Char := ['=', '|', '&']

theorem symbol_tail (op : Operator) {s : List Char} (h : op.symbol.toList = c :: s) :
    s = [] ∨ ∃ k ∈ tails, s = [k] := by
  obtain rfl : op.symbol.toList.tail = s := by rw [h]; rfl
  cases op with
  | compare c => cases c <;> first | exact .inl rfl | exact .inr ⟨_, by decide, rfl⟩
  | _ => first | exact .inl rfl | exact .inr ⟨_, by decide, rfl⟩

end Operator

/-! ### After parentheses -/

/-- A closed beginning reaches to the end of the parentheses or further. -/
theorem Cut.after_parens (ht : Balanced i t) (he : parens t ++ v = x ++ c :: y) (hx : x ≠ []) (hclosed : Closed x) :
    ∃ w, x = parens t ++ w ∧ v = w ++ c :: y ∧ Closed w := by
  rcases List.append_eq_append_iff.mp he with ⟨w, rfl, hw⟩ | ⟨w, hw, hy⟩
  · exact ⟨w, rfl, hw, (ht.enclosed rfl).of_append hclosed⟩
  · cases w with
    | nil => exact ⟨[], by simpa using hw.symm, hy.symm, .nil⟩
    | cons d w => exact absurd hclosed (ht.not_closed_enclosed rfl hw hx (List.cons_ne_nil d w))

/-- An uncuttable text after parentheses is cut where they end. -/
theorem Cut.at_end (ht : Balanced i t) (hv : Uncuttable v) (h : Cut (parens t ++ v) e) :
    (∃ y l s, v = '.' :: y ∧ Reads (parens t) l ∧ (Form.reader Form.afterDot).Accepts y s ∧ e = .dot l s) ∨
      (∃ y l b, v = '[' :: y ∧ Reads (parens t) l ∧ (Form.reader Form.bracket).Accepts ('[' :: y) b ∧
        e = .indexOf l b) ∨
      ∃ c y, v = c :: y ∧ c ∈ Operator.heads := by
  have hend : ∀ {x c y l}, parens t ++ v = x ++ c :: y → Reads x l → c ∈ joints → x = parens t ∧ v = c :: y := by
    intro x c y l he hx hc
    obtain ⟨w, rfl, rfl, hw⟩ := Cut.after_parens ht he (Expr.reads_ne_nil hx) (Expr.reads_closed hx)
    cases w with
    | nil => exact ⟨List.append_nil _, rfl⟩
    | cons d w => exact absurd hc (hv _ c y rfl (List.cons_ne_nil d w) hw)
  generalize htext : parens t ++ v = w at h
  cases h with
  | dot hx hy =>
    obtain ⟨rfl, hv⟩ := hend htext hx (by decide)
    exact .inl ⟨_, _, _, hv, hx, hy, rfl⟩
  | index hx hy =>
    obtain ⟨rfl, hv⟩ := hend htext hx (by decide)
    exact .inr (.inl ⟨_, _, _, hv, hx, hy, rfl⟩)
  | @binary op x y _ _ hx _ =>
    obtain ⟨d, s, hs, hd⟩ := op.symbol_head
    rw [hs] at htext
    obtain ⟨-, hv⟩ := hend htext hx (mem_joints hd)
    exact .inr (.inr ⟨d, _, hv, hd⟩)

/-- A cut between two parenthesised operands lies in the symbol between them. -/
theorem Cut.in_symbol (op : Operator) (hu : Balanced i u) (he : op.symbol.toList ++ parens u = x ++ c :: y)
    (hx : Closed x) (hc : c ∈ joints) : ∃ s, op.symbol.toList = x ++ c :: s ∧ y = s ++ parens u := by
  have hopen : c ≠ '(' := by
    rintro rfl
    exact absurd hc (by decide)
  rcases List.append_eq_append_iff.mp he with ⟨w, rfl, hw⟩ | ⟨w, hw, hy⟩
  · cases w with
    | nil => exact absurd (List.cons.inj hw).1.symm hopen
    | cons d w =>
      have hclosed := (closed_symbol op).of_append hx
      exact absurd hclosed (hu.not_closed_enclosed rfl hw (List.cons_ne_nil d w) (List.cons_ne_nil c y))
  · cases w with
    | nil => exact absurd (List.cons.inj hy).1 hopen
    | cons d w =>
      simp only [List.cons_append, List.cons.injEq] at hy
      obtain ⟨rfl, hy⟩ := hy
      exact ⟨w, hw, hy⟩

namespace Expr

open Form

/-- **What goes on after parentheses is cut.** -/
theorem cut_of_reads (ht : Balanced i t) (hv : v ≠ []) (htight : Tight (parens t ++ v)) (h : Reads (parens t ++ v) e) :
    Cut (parens t ++ v) e := by
  refine (reads_heads_or_cut htight h).resolve_left ?_
  rintro ⟨j, R, hR, he, hheads⟩
  have hparen : ∀ j < 16, heads j '(' = true → j = 7 := by decide
  cases hparen j (heads_lt hheads) hheads
  cases hR
  obtain ⟨w, x, htext, hw, -⟩ := (parenthesised_iff htight).mp he
  exact (reads_closed hw).not_closed_enclosed rfl htext.symm (List.cons_ne_nil _ _) hv (ht.enclosed rfl)

/-- The first character of a symbol does not end what is read. -/
theorem not_reads_head (ht : Balanced i t) (hc : c ∈ Operator.heads) : ¬ Reads (parens t ++ [c]) e := by
  intro h
  have hspace : c ≠ ' ' := by
    rintro rfl
    exact absurd hc (by decide)
  have htight : Tight (parens t ++ [c]) := .of_enclosed (t ++ [')']) (by decide) hspace
  have hcut := cut_of_reads ht (List.cons_ne_nil c []) htight h
  have hnil : ∀ {x d y l}, parens t ++ [c] = x ++ d :: y → Reads x l → y = [] := by
    intro x d y l he hx
    obtain ⟨w, -, hw, -⟩ := Cut.after_parens ht he (reads_ne_nil hx) (reads_closed hx)
    rcases List.append_eq_singleton_iff.mp hw.symm with ⟨-, hy⟩ | ⟨-, hy⟩
    · exact (List.cons.inj hy).2
    · cases hy
  generalize he : parens t ++ [c] = w at hcut
  cases hcut with
  | dot hx hy => exact not_afterDot_nil _ (hnil he hx ▸ hy)
  | index hx hy => exact not_bracket_open _ (hnil he hx ▸ hy)
  | @binary op x y l r hx hy =>
    obtain ⟨d, s, hs, -⟩ := op.symbol_head
    rw [hs] at he
    exact not_reads_nil r ((List.append_eq_nil_iff.mp (hnil he hx)).2 ▸ hy)

/-- The second character of a symbol does not begin what is read. -/
theorem not_reads_tail (hc : c ∈ Operator.tails) (ht : Balanced i t) : ¬ Reads (c :: parens t) e := by
  intro h
  have hfacts : c ≠ ' ' ∧ isPlain c = true ∧ ∀ j < 16, heads j c = false := by
    simp only [Operator.tails, List.mem_cons, List.not_mem_nil, or_false] at hc
    rcases hc with rfl | rfl | rfl <;> decide
  have htight : Tight (c :: parens t) := .of_enclosed ('(' :: t) hfacts.1 (by decide)
  have huncut : Uncuttable ([c] ++ parens t) :=
    .after (List.forall_mem_singleton.mpr hfacts.2.1) nofun (.enclosed ht rfl) fun _ => by decide
  obtain ⟨j, R, -, -, hheads⟩ := (reads_heads_or_cut htight h).resolve_right huncut.not_cut
  rw [hfacts.2.2 j (heads_lt hheads)] at hheads
  cases hheads

/-- Symbols that begin alike before parentheses are the same. -/
theorem symbol_unique {op op' : Operator} {s s' : List Char} (hu : Balanced i u) (hs : op.symbol.toList = c :: s)
    (hs' : op'.symbol.toList = c :: s') (he : s' ++ y = s ++ parens u) (hy : Reads y r) :
    op' = op ∧ y = parens u := by
  rcases op.symbol_tail hs with rfl | ⟨k, hk, rfl⟩ <;> rcases op'.symbol_tail hs' with rfl | ⟨k', hk', rfl⟩
  · exact ⟨Operator.symbol_inj (hs'.trans hs.symm), he⟩
  · -- the longer symbol would take a parenthesis with it
    obtain ⟨rfl, -⟩ := List.cons.inj he
    exact absurd hk' (by decide)
  · -- the shorter symbol would leave the rest of the longer one
    rw [List.nil_append] at he
    exact absurd (he ▸ hy) (not_reads_tail hk hu)
  · simp only [List.cons_append, List.nil_append, List.cons.injEq] at he
    obtain ⟨rfl, he⟩ := he
    exact ⟨Operator.symbol_inj (hs'.trans hs.symm), he⟩

/-- **An operator between parentheses is read as itself.** -/
theorem reads_operator (op : Operator) (hl : Reads t l) (hr : Reads u r) :
    Reads (parens t ++ (op.symbol.toList ++ parens u)) (.binary op (.paren l) (.paren r)) := by
  have htight : Tight (parens t ++ (op.symbol.toList ++ parens u)) := by
    have hjoin := (tight_parens t).join op.symbol.toList (tight_parens u)
    rwa [List.append_assoc] at hjoin
  obtain ⟨e, he⟩ := (Cut.binary op (reads_paren hl) (reads_paren hr)).readable htight
  suffices hunique : e = .binary op (.paren l) (.paren r) from hunique ▸ he
  have ht := reads_closed hl
  have hu := reads_closed hr
  have hcut := cut_of_reads ht (by simp) htight he
  have hsymbol : ∀ {x d y l}, parens t ++ (op.symbol.toList ++ parens u) = x ++ d :: y → Reads x l → d ∈ joints →
      ∃ w s, x = parens t ++ w ∧ op.symbol.toList = w ++ d :: s ∧ y = s ++ parens u := by
    intro x d y l he hx hd
    obtain ⟨w, rfl, hw, hclosed⟩ := Cut.after_parens ht he (reads_ne_nil hx) (reads_closed hx)
    obtain ⟨s, hs, hy⟩ := Cut.in_symbol op hu hw hclosed hd
    exact ⟨w, s, rfl, hs, hy⟩
  generalize htext : parens t ++ (op.symbol.toList ++ parens u) = w at hcut
  cases hcut with
  | dot hx _ =>
    obtain ⟨w, s, -, hs, -⟩ := hsymbol htext hx (by decide)
    exact absurd (op.mem_heads (c := '.') (by simp [hs])) (by decide)
  | index hx _ =>
    obtain ⟨w, s, -, hs, -⟩ := hsymbol htext hx (by decide)
    exact absurd (op.mem_heads (c := '[') (by simp [hs])) (by decide)
  | @binary op' x y l' r' hx hy =>
    obtain ⟨d, s', hs', hd⟩ := op'.symbol_head
    rw [hs'] at htext
    obtain ⟨w, s, rfl, hs, hrest⟩ := hsymbol htext hx (mem_joints hd)
    cases w with
    | nil =>
      rw [List.append_nil] at hx
      obtain ⟨rfl, rfl⟩ := symbol_unique hu hs hs' hrest hy
      rw [reads_unique hx (reads_paren hl), reads_unique hy (reads_paren hr)]
    | cons a w =>
      -- the cut at the second character leaves the first one at the end of the left side
      have hw : w = [] := by
        rcases op.symbol_tail hs with h | ⟨k, -, h⟩
        · exact (List.append_eq_nil_iff.mp h).1
        · rcases List.append_eq_singleton_iff.mp h with ⟨hw, -⟩ | ⟨-, h⟩
          · exact hw
          · cases h
      subst hw
      exact absurd hx (not_reads_head ht (op.mem_heads (c := a) (by simp [hs])))

/-- **A name after parentheses and a dot is read as a member.** -/
theorem reads_dot_name (hl : Reads t l) (hn : IsName u) :
    Reads (parens t ++ '.' :: u) (.dot (.paren l) (.identifier (String.ofList u))) := by
  have htight : Tight (parens t ++ '.' :: u) := by
    have hjoin := (tight_parens t).join ['.'] hn.tight
    rwa [List.append_assoc] at hjoin
  have hname := afterDot_of_name hn
  have huncut : Uncuttable ('.' :: u) := .of_tail hn.not_joint
  obtain ⟨e, he⟩ := (Cut.dot (reads_paren hl) hname).readable htight
  have hcut := cut_of_reads (reads_closed hl) (List.cons_ne_nil '.' u) htight he
  rcases hcut.at_end (reads_closed hl) huncut with ⟨y, l', s, hu, hx, hy, rfl⟩ |
    ⟨y, l', b, hu, -⟩ | ⟨c, y, hu, hc⟩
  · obtain ⟨-, rfl⟩ := List.cons.inj hu
    rwa [reads_unique hx (reads_paren hl), Except.ok.inj (hy.symm.trans hname)] at he
  · exact absurd (List.cons.inj hu).1 (by decide)
  · exact absurd ((List.cons.inj hu).1 ▸ hc) (by decide)

/-- **Brackets after parentheses are read as theirs.** -/
theorem reads_index_parens {b : Bracket} (hl : Reads t l) (hb : (reader bracket).Accepts ('[' :: u ++ [']']) b) :
    Reads (parens t ++ ('[' :: u ++ [']'])) (.indexOf (.paren l) b) := by
  have htight : Tight (parens t ++ ('[' :: u ++ [']'])) := by
    have hjoin := (tight_parens t).join [] (.of_enclosed u (show '[' ≠ ' ' by decide) (show ']' ≠ ' ' by decide))
    rwa [List.append_nil] at hjoin
  obtain ⟨e, he⟩ := (Cut.index (reads_paren hl) hb).readable htight
  have hcut := cut_of_reads (v := '[' :: u ++ [']']) (reads_closed hl) (List.cons_ne_nil _ _) htight he
  rcases hcut.at_end (reads_closed hl) (.enclosed (bracket_closed hb) rfl) with ⟨y, l', s, hu, -⟩ |
    ⟨y, l', b', hu, hx, hy, rfl⟩ | ⟨c, y, hu, hc⟩
  · exact absurd (List.cons.inj hu).1 (by decide)
  · obtain ⟨-, rfl⟩ := List.cons.inj hu
    have hsame : b' = b := Except.ok.inj (hy.symm.trans hb)
    rwa [reads_unique hx (reads_paren hl), hsame] at he
  · exact absurd ((List.cons.inj hu).1 ▸ hc) (by decide)

end Expr

/-! ### Trees -/

/-- A text without control characters. -/
structure RawText where
  text : String
  printable : text.toList.all (' ' ≤ ·) = true

mutual

/-- A tree of names, raw strings, operators, members, brackets, lists and calls. -/
inductive Term
  | name (n : Name)
  | raw (s : RawText)
  | binary (op : Operator) (left right : Term)
  | not (operand : Term)
  | dot (left : Term) (n : Name)
  | index (b : Subscript)
  | indexOf (left : Term) (b : Subscript)
  /-- Two or more items. -/
  | list (first second : Term) (rest : List Term)
  | call (f : Name)
  /-- Two or more arguments. -/
  | callWith (f : Name) (first second : Term) (rest : List Term)

/-- What stands between the square brackets of one. -/
inductive Subscript
  | place (n : Int64)
  | flatten
  | every
  | filter (predicate : Term)

end

mutual

/-- How a tree is written, with each operand of an operator, an exclamation mark, a dot
or a bracket in parentheses. -/
def Term.chars : Term → List Char
  | .name n => n.text.toList
  | .raw s => '\'' :: escapeRaw s.text.toList ++ ['\'']
  | .binary op l r => parens l.chars ++ (op.symbol.toList ++ parens r.chars)
  | .not t => '!' :: parens t.chars
  | .dot l n => parens l.chars ++ '.' :: n.text.toList
  | .index b => '[' :: b.chars ++ [']']
  | .indexOf l b => parens l.chars ++ ('[' :: b.chars ++ [']'])
  | .list t u ts => '[' :: [','].intercalate (t.chars :: u.chars :: Term.charsAll ts) ++ [']']
  | .call f => f.text.toList ++ parens []
  | .callWith f t u ts =>
    f.text.toList ++ parens ([','].intercalate (t.chars :: u.chars :: Term.charsAll ts))

/-- What is written between square brackets. -/
def Subscript.chars : Subscript → List Char
  | .place n => decimal n
  | .flatten => []
  | .every => ['*']
  | .filter t => '?' :: t.chars

def Term.charsAll : List Term → List (List Char)
  | [] => []
  | t :: ts => t.chars :: Term.charsAll ts

end

/-- The text of a tree. -/
def Term.text (t : Term) : String := String.ofList t.chars

mutual

/-- The expression of a tree, with the parentheses around its operands. -/
def Term.pinned : Term → Expr
  | .name n => .selector (.identifier n.text)
  | .raw s => .raw s.text
  | .binary op l r => .binary op (.paren l.pinned) (.paren r.pinned)
  | .not t => .not (.paren t.pinned)
  | .dot l n => .dot (.paren l.pinned) (.identifier n.text)
  | .index b => .index b.pinned
  | .indexOf l b => .indexOf (.paren l.pinned) b.pinned
  | .list t u ts => .selector (.list (t.pinned :: u.pinned :: Term.pinnedAll ts))
  | .call f => .selector (.call f.text [])
  | .callWith f t u ts => .selector (.call f.text ((t.pinned :: u.pinned :: Term.pinnedAll ts).map .value))

/-- The bracket of a subscript. -/
def Subscript.pinned : Subscript → Bracket
  | .place n => .number n
  | .flatten => .flatten
  | .every => .star
  | .filter t => .filter t.pinned

def Term.pinnedAll : List Term → List Expr
  | [] => []
  | t :: ts => t.pinned :: Term.pinnedAll ts

end

open Form

mutual

/-- **What is written is read.** -/
theorem Term.reads : ∀ t : Term, Reads t.chars t.pinned
  | .name n => by
    have h := Expr.reads_name n.isName
    rwa [String.ofList_toList] at h
  | .raw s => by
    have h := Expr.reads_raw (rawBody_escapeRaw s.printable)
    rwa [String.ofList_toList] at h
  | .binary op l r => Expr.reads_operator op l.reads r.reads
  | .not t => Expr.reads_not t.reads
  | .dot l n => by
    have h := Expr.reads_dot_name l.reads n.isName
    rwa [String.ofList_toList] at h
  | .index b => Expr.reads_index b.accepts
  | .indexOf l b => Expr.reads_index_parens l.reads b.accepts
  | .list t u ts => Expr.reads_list t.reads u.reads (Term.readsAll ts)
  | .call f => by
    have h := (Expr.reads_call_iff f.isName (.nil : Balanced true [])).mpr ⟨[], arguments_nil, rfl⟩
    rwa [String.ofList_toList] at h
  | .callWith f t u ts => by
    have hargs : List.Forall₂ Reads (t.chars :: u.chars :: Term.charsAll ts) _ :=
      .cons t.reads (.cons u.reads (Term.readsAll ts))
    have h := (Expr.reads_arguments_iff f.isName (List.cons_ne_nil _ _) hargs).mpr ⟨.inl (by simp), rfl⟩
    rwa [String.ofList_toList] at h

/-- What is written between square brackets is read as theirs. -/
theorem Subscript.accepts : ∀ b : Subscript, (reader bracket).Accepts ('[' :: b.chars ++ [']']) b.pinned
  | .place n => bracket_of_isNumber (isNumber_decimal n)
  | .flatten => by rfl
  | .every => by rfl
  | .filter t => bracket_iff.mpr (by rw [if_pos rfl]; exact ⟨_, t.reads, rfl⟩)

theorem Term.readsAll : ∀ ts : List Term, List.Forall₂ Reads (Term.charsAll ts) (Term.pinnedAll ts)
  | [] => .nil
  | t :: ts => .cons t.reads (Term.readsAll ts)

end

/-- **Parentheses pin the tree.** What is written with each operand in parentheses is read
as it is, with the parentheses. -/
theorem Term.parse_text (t : Term) {limits : Limits} (hlimit : t.text.length ≤ limits.maxDepth) :
    Expr.parse limits t.text = .ok t.pinned := by
  have htext : t.text.toList = t.chars := String.toList_ofList
  rw [← String.length_toList] at hlimit
  rw [Expr.parse_eq_read hlimit, htext]
  exact t.reads

/-- An operator between a filtered name and a call. -/
theorem Term.parse_text_or : Expr.parse ⟨18⟩ "((a)[?'b'])||(f())" =
    .ok (.binary .or (.paren (.indexOf (.paren (.selector (.identifier "a"))) (.filter (.raw "b"))))
      (.paren (.selector (.call "f" [])))) := by
  have htext : Term.text (.binary .or (.indexOf (.name ⟨"a", by decide⟩) (.filter (.raw ⟨"b", by decide⟩)))
      (.call ⟨"f", by decide⟩)) = "((a)[?'b'])||(f())" := by rfl
  rw [← htext]
  exact Term.parse_text _ (by rw [htext]; decide)

end PathQuery
