/-
# Which operators may stand inside which

There is no table of precedence: the forms are tried in order, and each is cut at
the first place that suits it. So an operand that could have been cut by an earlier
form, or at an earlier place, would have been. What makes this precise is that a
text stays readable when it is joined to another by an operator
(`Expr.Readable.join`) or put after an exclamation mark (`Expr.Readable.not`): the
rest of an operand's cut is always a side of a cut of the whole.

Key definitions: `Operator.rank`, `Operator.Fits`, `Expr.Negatable`, `Expr.Placed`,
`Expr.Node`.
Key theorems: `Expr.Readable.join`, `Expr.Readable.not`, `Expr.reads_placed`,
`Expr.node_reads`, `Expr.parse_placed`.
-/
import PathQuery.Proofs.Forms

namespace PathQuery

open Grammar

/-! ### Operators in order -/

namespace Operator

/-- The place of an operator in the order of trial. -/
def rank : Operator → Nat
  | .compare c => c.rank
  | .or => 6
  | .and => 7
  | .pipe => 8

/-- The place of the form of an operator among the forms. -/
def place : Operator → Nat
  | .compare _ => 2
  | .or => 3
  | .and => 5
  | .pipe => 13

/-- The form that joins two expressions with an operator. -/
def form : Operator → Reader Expr
  | .compare _ => Form.reader Form.comparison
  | .or => Form.reader fun src nested => Form.joined src nested "or-expression" "||" .or
  | .and => Form.reader fun src nested => Form.joined src nested "and-expression" "&&" .and
  | .pipe => Form.reader fun src nested => Form.joined src nested "pipe-expression" "|" .pipe

theorem readers_place (op : Operator) : Form.readers[op.place]? = some op.form := by cases op <;> rfl

theorem two_le_place (op : Operator) : 2 ≤ op.place := by cases op <;> simp [place]

/-- Two operands that an operator may have. -/
structure Fits (op : Operator) (l r : Expr) : Prop where
  left : ∀ op' l' r', l = .binary op' l' r' → op.rank < op'.rank
  right : ∀ op' l' r', r = .binary op' l' r' → op.rank ≤ op'.rank
  right_dot : ∀ l' s, r ≠ .dot l' s
  right_index : ∀ l' b, r ≠ .indexOf l' b

theorem rank_lt_six (c : Comparator) : c.rank < 6 := by cases c <;> decide

theorem rank_inj {op op' : Operator} (h : op'.rank = op.rank) : op' = op := by
  cases op with
  | compare c =>
    have hc := rank_lt_six c
    cases op' with
    | compare c' => revert h; cases c <;> cases c' <;> decide
    | _ => simp only [rank] at h; omega
  | _ =>
    cases op' with
    | compare c' =>
      have hc := rank_lt_six c'
      simp only [rank] at h
      omega
    | _ => simp_all [rank]

/-- An operator of an earlier form, or an earlier comparison, has a lower rank. -/
theorem rank_lt_iff {op op' : Operator} : op'.rank < op.rank ↔
    op'.place < op.place ∨ ∃ c c', op = .compare c ∧ op' = .compare c' ∧ c'.rank < c.rank := by
  cases op with
  | compare c =>
    have hc := rank_lt_six c
    cases op' with
    | compare c' =>
      refine ⟨fun h => .inr ⟨c, c', rfl, rfl, h⟩, ?_⟩
      rintro (h | ⟨_, _, ⟨⟩, ⟨⟩, h⟩)
      · exact absurd h (Nat.lt_irrefl _)
      · exact h
    | _ => simp only [rank, place]; simp; omega
  | _ =>
    cases op' with
    | compare c' =>
      have hc := rank_lt_six c'
      simp only [rank, place]
      simp
      omega
    | _ => simp [rank, place]

end Operator

namespace Form

open PathQuery.Expr (Reads)

variable {t : List Char}

theorem symbol_ne_nil (op : Operator) : op.symbol.toList ≠ [] := by
  cases op with
  | compare c => cases c <;> decide
  | _ => decide

/-- **What the form of an operator makes of a text.** -/
theorem form_iff (ht : Tight t) (op : Operator) (l r : Expr) : op.form.Accepts t (.binary op l r) ↔
    FirstCut op.symbol.toList Reads Reads t l r ∧
      ∀ op' : Operator, op'.place = op.place → op'.rank < op.rank →
        ∀ l r, ¬ FirstCut op'.symbol.toList Reads Reads t l r := by
  cases op with
  | compare c =>
    refine (comparison_iff ht).trans ⟨?_, ?_⟩
    · rintro ⟨c', l', r', hcut, ⟨⟩, hbefore⟩
      refine ⟨hcut, fun op' hplace hrank => ?_⟩
      cases op' with
      | compare c' => exact hbefore c' hrank
      | _ => simp [Operator.place] at hplace
    · exact fun ⟨hcut, hbefore⟩ => ⟨c, l, r, hcut, rfl, fun c' hrank => hbefore (.compare c') rfl hrank⟩
  | _ =>
    refine (joined_iff ht (by decide)).trans ⟨?_, fun ⟨hcut, _⟩ => ⟨l, r, hcut, rfl⟩⟩
    rintro ⟨l', r', hcut, ⟨⟩⟩
    refine ⟨hcut, fun op' hplace hrank => ?_⟩
    cases op' <;> simp [Operator.place, Operator.rank] at hplace hrank

/-- A text that can be cut at an operator is accepted by the form of it. -/
theorem exists_form (ht : Tight t) {op : Operator} {l r : Expr} (h : FirstCut op.symbol.toList Reads Reads t l r) :
    ∃ e, op.form.Accepts t e := by
  induction hn : op.rank using Nat.strongRecOn generalizing op l r with
  | ind n ih =>
    by_cases hearlier : ∃ op' : Operator, op'.place = op.place ∧ op'.rank < op.rank ∧
        ∃ l r, FirstCut op'.symbol.toList Reads Reads t l r
    · obtain ⟨op', hplace, hrank, l', r', hcut⟩ := hearlier
      have hform : op'.form = op.form :=
        Option.some.inj (op'.readers_place.symm.trans ((congrArg (readers[·]?) hplace).trans op.readers_place))
      rw [← hform]
      exact ih op'.rank (by omega) hcut rfl
    · refine ⟨.binary op l r, (form_iff ht op l r).mpr ⟨h, fun op' hplace hrank l' r' hcut => hearlier ?_⟩⟩
      exact ⟨op', hplace, hrank, l', r', hcut⟩

end Form

/-! ### Trees and their forms -/

namespace Expr

/-- The place of the form that makes an expression. -/
def place : Expr → Nat
  | .dot _ _ => 0
  | .index _ => 1
  | .indexOf _ _ => 1
  | .binary op _ _ => op.place
  | .selector (.identifier _) => 4
  | .not _ => 6
  | .paren _ => 7
  | .selector .star => 8
  | .selector (.list _) => 9
  | .selector (.hash _) => 10
  | .literal _ => 11
  | .selector (.call _ _) => 12
  | .raw _ => 14
  | .current => 15

end Expr

namespace Form

/-- Each form makes expressions of its own kind only. -/
theorem place_eq {i : Nat} {R : Reader Expr} {t : List Char} {e : Expr} (hi : readers[i]? = some R)
    (h : R.Accepts t e) : e.place = i := by
  have hlt : i < 16 := (List.getElem?_eq_some_iff.mp hi).1
  match i, hlt with
  | 0, _ =>
    cases hi
    obtain ⟨s, -, h⟩ := bind_eq_ok.mp h
    split at h
    · cases h
      rfl
    · cases h
  | 1, _ =>
    cases hi
    obtain ⟨s, -, h⟩ := bind_eq_ok.mp h
    obtain ⟨rule, hrule, h⟩ := Rule.oneOf_eq_ok h
    rcases List.mem_cons.mp hrule with rfl | hrule
    · obtain ⟨s, -, h⟩ := bind_eq_ok.mp h
      split at h
      · cases h
        rfl
      · cases h
    · cases List.mem_singleton.mp hrule
      obtain ⟨b, -, rfl⟩ := map_eq_ok.mp h
      rfl
  | 2, _ =>
    cases hi
    obtain ⟨s, -, h⟩ := bind_eq_ok.mp h
    simp only at h
    split at h
    · rename_i e' hfound
      cases h
      obtain ⟨c, -, hc⟩ := List.exists_of_findSome?_eq_some hfound
      obtain ⟨sides, -, rfl⟩ := Option.map_eq_some_iff.mp hc
      rfl
    · cases h
  | 3, _ | 5, _ | 13, _ =>
    cases hi
    obtain ⟨s, -, h⟩ := bind_eq_ok.mp h
    split at h
    · cases h
      rfl
    · cases h
  | 4, _ =>
    cases hi
    obtain ⟨x, hx, rfl⟩ := map_eq_ok.mp h
    obtain ⟨n, -, rfl⟩ := map_eq_ok.mp hx
    rfl
  | 6, _ =>
    cases hi
    obtain ⟨s, -, h⟩ := bind_eq_ok.mp h
    obtain ⟨x, -, rfl⟩ := map_eq_ok.mp (demand_eq_ok.mp h).2
    rfl
  | 7, _ =>
    cases hi
    obtain ⟨s, -, h⟩ := bind_eq_ok.mp h
    obtain ⟨x, -, rfl⟩ := map_eq_ok.mp (guard_eq_ok.mp (demand_eq_ok.mp h).2).2
    rfl
  | 8, _ =>
    cases hi
    obtain ⟨x, hx, rfl⟩ := map_eq_ok.mp h
    obtain ⟨u, -, rfl⟩ := map_eq_ok.mp hx
    rfl
  | 9, _ | 10, _ =>
    cases hi
    obtain ⟨x, hx, rfl⟩ := map_eq_ok.mp h
    obtain ⟨es, -, rfl⟩ := map_eq_ok.mp hx
    rfl
  | 11, _ | 14, _ | 15, _ =>
    cases hi
    obtain ⟨v, -, rfl⟩ := map_eq_ok.mp h
    rfl
  | 12, _ =>
    cases hi
    obtain ⟨x, hx, rfl⟩ := map_eq_ok.mp h
    obtain ⟨s, -, hx⟩ := bind_eq_ok.mp hx
    obtain ⟨f, -, hx⟩ := bind_eq_ok.mp (guard_eq_ok.mp hx).2
    obtain ⟨as, -, rfl⟩ := map_eq_ok.mp hx
    rfl

end Form

namespace Expr

open Form

variable {t x y : List Char} {e l r : Expr} {op : Operator}

/-- What is read is made by its own form, and no earlier form makes anything. -/
theorem reads_place (ht : Tight t) (h : Reads t e) :
    (∃ R, readers[e.place]? = some R ∧ R.Accepts t e) ∧
      ∀ (j : Nat) (R : Reader Expr), j < e.place → readers[j]? = some R → ∀ e', ¬ R.Accepts t e' := by
  obtain ⟨i, R, hi, he, hbefore⟩ := ((reads_iff ht).mp h).place
  obtain rfl := place_eq hi he
  exact ⟨⟨R, hi, he⟩, hbefore⟩

/-- Whether a text can be read at all. -/
def Readable (t : List Char) : Prop := ∃ e, Reads t e

theorem readable_of_accepts (ht : Tight t) {R : Reader Expr} (hR : R ∈ readers) (h : R.Accepts t e) :
    Readable t := by
  obtain ⟨e', he'⟩ := FirstOf.exists hR h
  exact ⟨e', (reads_iff ht).mpr he'⟩

/-- **Two readable texts around an operator are a readable text.** -/
theorem Readable.join (hx : Readable x) (hy : Readable y) (op : Operator) :
    Readable (x ++ (op.symbol.toList ++ y)) := by
  obtain ⟨l, hl⟩ := hx
  obtain ⟨r, hr⟩ := hy
  obtain ⟨a, u, a', rfl, ha, ha', hu, hl⟩ := reads_core hl
  obtain ⟨b', v, b, rfl, hb', hb, hv, hr⟩ := reads_core hr
  have hleft : Reads (u ++ a') l := by simpa using (reads_pad (a := []) nofun ha').mpr hl
  have hright : Reads (b' ++ v) r := by simpa using (reads_pad (b := []) hb' nofun).mpr hr
  have htight : Tight (u ++ a' ++ (op.symbol.toList ++ (b' ++ v))) := by
    have hjoin := hu.join (a' ++ (op.symbol.toList ++ b')) hv
    simpa only [List.append_assoc] using hjoin
  obtain ⟨l', r', hcut⟩ := FirstCut.exists (L := Reads) (R := Reads) rfl hleft hright
  obtain ⟨e, he⟩ := exists_form htight hcut
  obtain ⟨e, he⟩ := readable_of_accepts htight (List.mem_of_getElem? op.readers_place) he
  refine ⟨e, ?_⟩
  have hpad := (reads_pad ha hb).mpr he
  simpa only [List.append_assoc] using hpad

/-- **A readable text after an exclamation mark is a readable text.** -/
theorem Readable.not (hx : Readable x) : Readable ('!' :: x) := by
  obtain ⟨l, hl⟩ := hx
  obtain ⟨a, u, b, rfl, ha, hb, hu, hl⟩ := reads_core hl
  have hinner : Reads (a ++ u) l := by simpa using (reads_pad (b := []) ha nofun).mpr hl
  have htight : Tight ('!' :: (a ++ u)) := by
    refine ⟨nofun, fun h => absurd (Option.some.inj h) (by decide), fun h => hu.last ?_⟩
    rwa [← List.cons_append, List.getLast?_append_of_ne_nil _ hu.ne_nil] at h
  have haccepts := (negated_iff htight).mpr ⟨_, l, rfl, hinner, rfl⟩
  obtain ⟨e, he⟩ := readable_of_accepts htight (List.mem_of_getElem? (i := 6) rfl) haccepts
  refine ⟨e, ?_⟩
  simpa using (reads_pad (a := []) nofun hb).mpr he

/-! ### Operands -/

/-- What an exclamation mark may stand before. -/
structure Negatable (e : Expr) : Prop where
  binary : ∀ op l r, e = .binary op l r → op = .pipe
  not_dot : ∀ l s, e ≠ .dot l s
  not_index : ∀ l b, e ≠ .indexOf l b

/-- Whether the operands of a node may stand there without parentheses. -/
def Placed : Expr → Prop
  | .binary op l r => op.Fits l r
  | .not e => e.Negatable
  | _ => True

/-- A text that is read by a later form has no cut that an earlier form would take. -/
structure Uncut (place : Nat) (t : List Char) : Prop where
  operator : ∀ {op : Operator} {x y : List Char}, op.place < place → t = x ++ (op.symbol.toList ++ y) →
    Readable x → ¬ Readable y
  dot : ∀ {x y : List Char} {s : Selector}, 0 < place → t = x ++ ('.' :: y) → Readable x →
    ¬ (reader afterDot).Accepts y s
  index : ∀ {x y : List Char} {b : Bracket}, 1 < place → t = x ++ ('[' :: y) → Readable x →
    ¬ (reader bracket).Accepts ('[' :: y) b

theorem reads_uncut (ht : Tight t) (h : Reads t e) : Uncut e.place t := by
  obtain ⟨-, hbefore⟩ := reads_place ht h
  constructor
  · rintro op x y hplace rfl ⟨l, hl⟩ ⟨r, hr⟩
    obtain ⟨l', r', hcut⟩ := FirstCut.exists (L := Reads) (R := Reads) rfl hl hr
    obtain ⟨e', he'⟩ := exists_form ht hcut
    exact hbefore op.place op.form hplace op.readers_place e' he'
  · rintro x y s hplace rfl ⟨l, hl⟩ hs
    obtain ⟨l', s', hcut⟩ := FirstCut.exists (R := (reader afterDot).Accepts) (s := ['.']) rfl hl hs
    exact hbefore 0 _ hplace rfl _ ((dotted_iff ht).mpr ⟨l', s', hcut, rfl⟩)
  · rintro x y b hplace rfl ⟨l, hl⟩ hb
    obtain ⟨l', b', hcut⟩ := FirstCut.exists (R := fun y => (reader bracket).Accepts ('[' :: y)) (s := ['[']) rfl hl hb
    have hleft := (indexedLeft_iff ht).mpr ⟨l', b', hcut, rfl⟩
    exact hbefore 1 _ hplace rfl _ ((indexed_iff ht).mpr (.here hleft))

/-! ### Cuts of what is read -/

/-- An expression with an operator is read from two sides of it. -/
theorem reads_binary (h : Reads t (.binary op l r)) :
    ∃ x y, t = x ++ (op.symbol.toList ++ y) ∧ Reads x l ∧ Reads y r := by
  obtain ⟨a, u, b, rfl, ha, hb, hu, h⟩ := reads_core h
  obtain ⟨⟨R, hR, he⟩, -⟩ := reads_place hu h
  cases op.readers_place.symm.trans hR
  obtain ⟨⟨x, y, rfl, hl, hr, -⟩, -⟩ := (form_iff hu op l r).mp he
  refine ⟨a ++ x, y ++ b, by simp only [List.append_assoc], ?_, ?_⟩
  · simpa using (reads_pad (b := []) ha nofun).mpr hl
  · simpa using (reads_pad (a := []) nofun hb).mpr hr

/-- An expression with a dot, at the end of a text, is read from two sides of it. -/
theorem reads_dot {s : Selector} (ht : Tight (x ++ y)) (h : Reads y (.dot l s)) :
    ∃ u v, y = u ++ '.' :: v ∧ Reads u l ∧ (reader afterDot).Accepts v s := by
  obtain ⟨a, w, b, rfl, ha, hb, hw, h⟩ := reads_core h
  obtain ⟨⟨R, hR, he⟩, -⟩ := reads_place hw h
  cases hR
  obtain ⟨l', s', ⟨u, v, rfl, hl, hs, -⟩, ⟨⟩⟩ := (dotted_iff hw).mp he
  rw [← List.append_assoc] at ht
  obtain rfl := ht.blank_right hb
  refine ⟨a ++ u, v, by simp, ?_, hs⟩
  simpa using (reads_pad (b := []) ha nofun).mpr hl

/-- An expression and brackets, at the end of a text, are read from two sides. -/
theorem reads_indexOf {b : Bracket} (ht : Tight (x ++ y)) (h : Reads y (.indexOf l b)) :
    ∃ u v, y = u ++ '[' :: v ∧ Reads u l ∧ (reader bracket).Accepts ('[' :: v) b := by
  obtain ⟨a, w, b', rfl, ha, hb, hw, h⟩ := reads_core h
  obtain ⟨⟨R, hR, he⟩, -⟩ := reads_place hw h
  cases hR
  rcases (indexed_iff hw).mp he with he | ⟨-, he⟩
  · obtain ⟨l', b'', ⟨u, v, rfl, hl, hs, -⟩, ⟨⟩⟩ := (indexedLeft_iff hw).mp he
    rw [← List.append_assoc] at ht
    obtain rfl := ht.blank_right hb
    refine ⟨a ++ u, v, by simp, ?_, hs⟩
    simpa using (reads_pad (b := []) ha nofun).mpr hl
  · rcases he with he | ⟨-, he⟩
    · obtain ⟨b, -, hb⟩ := map_eq_ok.mp he
      cases hb
    · cases he

/-! ### Where operators may stand -/

/-- **The operands of an operator.** -/
theorem reads_fits (ht : Tight t) (h : Reads t (.binary op l r)) : op.Fits l r := by
  have huncut := reads_uncut ht h
  obtain ⟨⟨R, hR, he⟩, -⟩ := reads_place ht h
  cases op.readers_place.symm.trans hR
  obtain ⟨⟨x, y, rfl, hl, hr, hfirst⟩, hearlier⟩ := (form_iff ht op l r).mp he
  have hlower : ∀ {op' : Operator} {u v : List Char}, op'.rank < op.rank →
      x ++ (op.symbol.toList ++ y) = u ++ (op'.symbol.toList ++ v) → Readable u → ¬ Readable v := by
    rintro op' u v hrank hcut ⟨l', hl'⟩ ⟨r', hr'⟩
    rcases Operator.rank_lt_iff.mp hrank with hplace | ⟨c, c', rfl, rfl, -⟩
    · exact huncut.operator hplace hcut ⟨l', hl'⟩ ⟨r', hr'⟩
    · obtain ⟨l'', r'', hcut⟩ := FirstCut.exists (L := Reads) (R := Reads) hcut hl' hr'
      exact hearlier (.compare c') rfl hrank _ _ hcut
  constructor
  · -- a cut of the left operand is a cut of the whole, at an earlier place
    rintro op' l' r' rfl
    obtain ⟨u, v, rfl, hu, hv⟩ := reads_binary hl
    have hjoin := Readable.join ⟨_, hv⟩ ⟨_, hr⟩ op
    refine Nat.lt_of_not_le fun hle => ?_
    rcases Nat.eq_or_lt_of_le hle with heq | hlt
    · obtain rfl : op' = op := Operator.rank_inj heq
      obtain ⟨r'', hr''⟩ := hjoin
      refine hfirst u _ (by simp only [List.append_assoc]) ?_ _ _ hu hr''
      have := List.length_pos_iff.mpr (symbol_ne_nil op')
      simp only [List.length_append]
      omega
    · exact hlower hlt (by simp only [List.append_assoc]) ⟨_, hu⟩ hjoin
  · rintro op' l' r' rfl
    obtain ⟨u, v, rfl, hu, hv⟩ := reads_binary hr
    have hjoin := Readable.join ⟨_, hl⟩ ⟨_, hu⟩ op
    exact Nat.le_of_not_lt fun hlt => hlower hlt (by simp only [List.append_assoc]) hjoin ⟨_, hv⟩
  · rintro l' s rfl
    rw [← List.append_assoc] at ht
    obtain ⟨u, v, rfl, hu, hs⟩ := reads_dot ht hr
    have hjoin := Readable.join ⟨_, hl⟩ ⟨_, hu⟩ op
    exact huncut.dot (Nat.lt_of_lt_of_le Nat.two_pos op.two_le_place) (by simp only [List.append_assoc]) hjoin hs
  · rintro l' b rfl
    rw [← List.append_assoc] at ht
    obtain ⟨u, v, rfl, hu, hb⟩ := reads_indexOf ht hr
    have hjoin := Readable.join ⟨_, hl⟩ ⟨_, hu⟩ op
    exact huncut.index op.two_le_place (by simp only [List.append_assoc]) hjoin hb

/-- **What an exclamation mark stands before.** -/
theorem reads_negatable (ht : Tight t) (h : Reads t (.not e)) : e.Negatable := by
  have huncut := reads_uncut ht h
  obtain ⟨⟨R, hR, he⟩, -⟩ := reads_place ht h
  cases hR
  obtain ⟨y, e', rfl, hy, ⟨⟩⟩ := (negated_iff ht).mp he
  constructor
  · rintro op l r rfl
    obtain ⟨u, v, rfl, hu, hv⟩ := reads_binary hy
    refine Decidable.not_not.mp fun hne => ?_
    have hplace : op.place < 6 := by cases op <;> simp [Operator.place] at hne ⊢
    exact huncut.operator hplace rfl (Readable.not ⟨_, hu⟩) ⟨_, hv⟩
  · rintro l s rfl
    obtain ⟨u, v, rfl, hu, hs⟩ := reads_dot (x := ['!']) ht hy
    exact huncut.dot (Nat.zero_lt_succ 5) rfl (Readable.not ⟨_, hu⟩) hs
  · rintro l b rfl
    obtain ⟨u, v, rfl, hu, hb⟩ := reads_indexOf (x := ['!']) ht hy
    exact huncut.index (Nat.lt_of_sub_pos (Nat.zero_lt_succ 4)) rfl (Readable.not ⟨_, hu⟩) hb

theorem reads_placed (h : Reads t e) : e.Placed := by
  obtain ⟨a, u, b, -, -, -, hu, h⟩ := reads_core h
  cases e with
  | binary op l r => exact reads_fits hu h
  | not e => exact reads_negatable hu h
  | _ => trivial

/-! ### Every node -/

end Expr

/-- What is given to a function, without an ampersand. -/
def Argument.expr : Argument → Expr
  | .value e => e
  | .reference e => e

/-- What a name stands for. -/
def Entry.value : Entry → Expr
  | .mk _ e => e

/-- The expressions right inside a selector. -/
def Selector.children : Selector → List Expr
  | .identifier _ => []
  | .star => []
  | .list items => items
  | .hash entries => entries.map Entry.value
  | .call _ arguments => arguments.map Argument.expr

/-- The expressions right inside brackets. -/
def Bracket.children : Bracket → List Expr
  | .filter predicate => [predicate]
  | _ => []

namespace Expr

/-- The expressions right inside an expression. -/
def children : Expr → List Expr
  | .selector s => s.children
  | .dot l s => l :: s.children
  | .index b => b.children
  | .indexOf l b => l :: b.children
  | .binary _ l r => [l, r]
  | .not e => [e]
  | .paren e => [e]
  | .literal _ => []
  | .raw _ => []
  | .current => []

/-- The nodes of a tree: the expression itself, and the nodes right inside it. -/
inductive Node : Expr → Expr → Prop
  | root {e : Expr} : Node e e
  | inside {e c n : Expr} : c ∈ e.children → Node c n → Node e n

end Expr

namespace Grammar

/-- The expressions right inside a part. -/
def Part.children : (part : Part) → part.Tree → List Expr
  | .expression, e => e.children
  | .nested, e => [e]
  | .selector, s => s.children
  | .bracket, b => b.children
  | .arguments, as => as.map Argument.expr
  | .argument, a => [a.expr]
  | .keyValue, k => [k.value]
  | .sequence part, xs => xs.flatMap part.children
  | _, _ => []

/-- What is right inside a phrase is as `P` says. -/
theorem Phrase.children {P : List Char → Expr → Prop} {part : Part} {t : List Char} {x : part.Tree}
    (h : Phrase P part t x) : ∀ c ∈ part.children x, ∃ u, P u c := by
  induction h with
  | nested h => exact fun c hc => ⟨_, List.mem_singleton.mp hc ▸ h⟩
  | spaced _ _ _ ih => exact ih
  | one _ ih =>
    intro c hc
    rw [Part.children, List.flatMap_singleton] at hc
    exact ih c hc
  | more _ _ ih ihs =>
    intro c hc
    rw [Part.children, List.flatMap_cons] at hc
    exact (List.mem_append.mp hc).elim (ih c) (ihs c)
  | dot h _ ih => exact List.forall_mem_cons.mpr ⟨⟨_, h⟩, ih⟩
  | indexOf h _ ih => exact List.forall_mem_cons.mpr ⟨⟨_, h⟩, ih⟩
  | binary hl hr => exact List.forall_mem_cons.mpr ⟨⟨_, hl⟩, List.forall_mem_singleton.mpr ⟨_, hr⟩⟩
  | not h => exact List.forall_mem_singleton.mpr ⟨_, h⟩
  | paren h => exact List.forall_mem_singleton.mpr ⟨_, h⟩
  | index _ ih => exact ih
  | alone _ ih => exact ih
  | list _ ih => exact fun c hc => ih c (List.mem_flatMap.mpr ⟨c, hc, List.mem_singleton_self c⟩)
  | hash _ ih =>
    intro c hc
    obtain ⟨k, hk, rfl⟩ := List.mem_map.mp hc
    exact ih _ (List.mem_flatMap.mpr ⟨k, hk, List.mem_singleton_self _⟩)
  | call _ _ _ ih => exact ih
  | arguments _ ih =>
    intro c hc
    obtain ⟨a, ha, rfl⟩ := List.mem_map.mp hc
    exact ih _ (List.mem_flatMap.mpr ⟨a, ha, List.mem_singleton_self _⟩)
  | value h => exact List.forall_mem_singleton.mpr ⟨_, h⟩
  | reference h => exact List.forall_mem_singleton.mpr ⟨_, h⟩
  | keyValue _ h => exact List.forall_mem_singleton.mpr ⟨_, h⟩
  | filter h => exact List.forall_mem_singleton.mpr ⟨_, h⟩
  | _ => exact nofun

end Grammar

namespace Expr

/-- Every node of what is read is read from some text. -/
theorem node_reads {n : Expr} (hn : Node e n) : ∀ {t : List Char}, Reads t e → ∃ u, Reads u n := by
  induction hn with
  | root => exact fun h => ⟨_, h⟩
  | inside hc _ ih =>
    intro t h
    obtain ⟨u, hu⟩ := (reads_phrase h).children _ hc
    exact ih hu

/-- **The operators of a text that is read with a level for each character** are such
that an operand that is no parenthesis fits its place: a left operand binds tighter,
a right operand no looser, and neither a right operand nor what an exclamation mark
stands before could have been cut by a form that is tried earlier. -/
theorem parse_placed {limits : Limits} {text : String} {n : Expr}
    (hlimit : text.toList.length ≤ limits.maxDepth) (h : parse limits text = .ok e) (hn : Node e n) :
    n.Placed := by
  obtain ⟨u, hu⟩ := node_reads hn ((parse_eq_read hlimit).mp h)
  exact reads_placed hu

/-- A right operand of an operator, and the operand of an exclamation mark before it. -/
theorem parse_placed_or_and :
    parse ⟨8⟩ "!a||b&&b" = .ok (.binary .or (.not (.selector (.identifier "a")))
        (.binary .and (.selector (.identifier "b")) (.selector (.identifier "b")))) ∧
      Placed (.binary .or (.not (.selector (.identifier "a")))
        (.binary .and (.selector (.identifier "b")) (.selector (.identifier "b")))) ∧
      Placed (.not (.selector (.identifier "a"))) := by
  have hlimit : "!a||b&&b".toList.length ≤ (⟨8⟩ : Limits).maxDepth := by decide
  exact ⟨by rfl, parse_placed hlimit (by rfl) .root, parse_placed hlimit (by rfl) (.inside (.head _) .root)⟩

end Expr

end PathQuery
