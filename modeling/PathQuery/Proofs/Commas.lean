/-
# The commas between entries

A scan passes some commas of a text outside all brackets and quotes (`Scan.commas`); the
others lie inside something. A rule for expressions accepts closed texts only, with any
budget, so what it accepts has none of the former. Of the commas that follow a position in
a range, then, at most one ends an entry there (`Rule.Closes.comma_unique`), and entries
between brackets are the pieces of what is between them, cut at just those commas
(`Rule.Closes.entries_separators`).

Key definitions: `Span.cut`, `Scan.commas`, `Source.separators`, `EntryKind`.
Key theorems: `Rule.entries_cut`, `Rule.Closes.comma_unique`,
`Rule.Closes.entries_separators`, `Expr.rule_separators`.
-/
import PathQuery.Proofs.Separation

namespace PathQuery

/-- The parts of a range that are left if positions of it are taken out. -/
def Span.cut : Span → List Nat → List Span
  | s, [] => [s]
  | s, p :: ps => ⟨s.start, p⟩ :: cut ⟨p + 1, s.stop⟩ ps

/-! ### Commas outside all brackets and quotes -/

namespace Scan

/-- The places of the commas that a scan passes outside all brackets and quotes, in a text
that begins at a position. -/
def commas : Scan → (position : Nat) → List Char → List Nat
  | _, _, [] => []
  | m, position, c :: t =>
    if c = ',' ∧ m = .code [] then position :: commas m (position + 1) t
    else
      match step true m c with
      | some m' => commas m' (position + 1) t
      | none => []

theorem step_mono {m m' : Scan} {c : Char} (h : step false m c = some m') : step true m c = some m' := by
  have hwithin : ∀ m : Scan, m.within [] = m := fun m => by cases m <;> simp [within]
  have hover : step true (m.within []) c = some (m'.within []) := step_within (.inr (.inl rfl)) h
  rwa [hwithin, hwithin] at hover

/-- A scan that refuses such commas passes none. -/
theorem commas_of_run : ∀ {t : List Char} {m m' : Scan} {position : Nat}, run false m t = some m' →
    commas m position t = []
  | [], _, _, _, _ => rfl
  | c :: t, m, m', position, h => by
    obtain ⟨m₁, hstep, hrun⟩ := Option.bind_eq_some_iff.mp h
    have hcomma : ¬(c = ',' ∧ m = .code []) := by
      rintro ⟨rfl, rfl⟩
      cases hstep
    rw [commas, if_neg hcomma, step_mono hstep]
    exact commas_of_run hrun

theorem commas_append : ∀ {t u : List Char} {m m' : Scan} {position : Nat}, run true m t = some m' →
    commas m position (t ++ u) = commas m position t ++ commas m' (position + t.length) u
  | [], _, _, _, _, h => by
    cases h
    rfl
  | c :: t, u, m, m', position, h => by
    obtain ⟨m₁, hstep, hrun⟩ := Option.bind_eq_some_iff.mp h
    have hlength : position + (c :: t).length = position + 1 + t.length := by
      rw [List.length_cons]
      omega
    rw [List.cons_append, commas, commas, hlength]
    by_cases hcomma : c = ',' ∧ m = .code []
    · obtain ⟨rfl, rfl⟩ := hcomma
      cases hstep
      rw [if_pos ⟨rfl, rfl⟩, if_pos ⟨rfl, rfl⟩, commas_append hrun, List.cons_append]
    · rw [if_neg hcomma, if_neg hcomma, hstep]
      exact commas_append hrun

end Scan

/-- The places in a range of the commas outside all brackets and quotes of its text. -/
def Source.separators (src : Source) (s : Span) : List Nat := Scan.commas (.code []) s.start (src.slice s)

namespace Source

variable {src : Source}

theorem separators_of_closed {s : Span} (h : Closed (src.slice s)) : src.separators s = [] :=
  Scan.commas_of_run h

/-- The comma after a closed beginning is the first. -/
theorem separators_cons {s : Span} {p : Nat} (hstart : s.start ≤ p) (hstop : p < s.stop)
    (hcomma : src.charAt p = some ',') (h : Closed (src.slice ⟨s.start, p⟩)) :
    src.separators s = p :: src.separators ⟨p + 1, s.stop⟩ := by
  have hp : p < src.size := (Array.getElem?_eq_some_iff.mp hcomma).1
  have hlength : s.start + (src.slice ⟨s.start, p⟩).length = p := by
    rw [src.length_slice (Nat.le_of_lt hp)]
    simp only [Span.length]
    omega
  have htext : src.slice s = src.slice ⟨s.start, p⟩ ++ ',' :: src.slice ⟨p + 1, s.stop⟩ := by
    rw [show src.slice s = src.slice ⟨s.start, s.stop⟩ from rfl,
      src.slice_append hstart (Nat.le_of_lt hstop), src.slice_cons hstop hcomma]
  unfold separators
  rw [htext, Scan.commas_append (show Scan.run true (.code []) _ = _ from h.mono), Scan.commas_of_run h,
    hlength, List.nil_append]
  rfl

end Source

/-! ### Entries and their commas -/

namespace Rule

variable {α : Type} {src : Source} {s : Span} {entry : Rule α}

theorem entriesFrom_cut {stop : Nat} : ∀ {commas : List Nat} {start : Nat} {as : List α},
    entriesFrom entry stop commas start = .ok as →
      ∃ cuts, cuts.Sublist commas ∧
        List.Forall₂ (fun r a => entry r = .ok a) (Span.cut ⟨start, stop⟩ cuts) as
  | [], start, as, h => by
    unfold entriesFrom at h
    split at h
    · rename_i a ha
      cases h
      exact ⟨[], .slnil, .cons ha .nil⟩
    · cases h
  | comma :: commas, start, as, h => by
    unfold entriesFrom at h
    split at h
    · rename_i a ha
      split at h
      · rename_i as' hrest
        cases h
        obtain ⟨cuts, hsub, hcuts⟩ := entriesFrom_cut hrest
        exact ⟨comma :: cuts, hsub.cons_cons comma, .cons ha hcuts⟩
      · cases h
    · obtain ⟨cuts, hsub, hcuts⟩ := entriesFrom_cut h
      exact ⟨cuts, hsub.cons comma, hcuts⟩

/-- **Entries are read from the pieces between some of the commas.** -/
theorem entries_cut {opening closing : Char} {as : List α} (h : entries src opening closing entry s = .ok as) :
    ∃ cuts : List Nat, cuts.Pairwise (· < ·) ∧ (∀ p ∈ cuts, p ∈ src.findAll (src.trim s).inner [',']) ∧
      List.Forall₂ (fun r a => entry r = .ok a) ((src.trim s).inner.cut cuts) as := by
  obtain ⟨-, -, -, -, hsep⟩ := entries_eq_ok.mp h
  cases hsep with
  | single _ ha => exact ⟨[], .nil, nofun, .cons ha .nil⟩
  | @several a as comma hfirst hrest =>
    obtain ⟨hmem, ha⟩ := mem_firstEntries.mp (hfirst ▸ List.mem_singleton_self (comma, a))
    obtain ⟨cuts, hsub, hcuts⟩ := entriesFrom_cut hrest
    have hafter : ∀ p ∈ cuts, p ∈ src.findAll (src.trim s).inner [','] ∧ comma < p := fun p hp => by
      obtain ⟨hp, hlt⟩ := List.mem_filter.mp (hsub.subset hp)
      exact ⟨hp, of_decide_eq_true hlt⟩
    refine ⟨comma :: cuts, List.pairwise_cons.mpr ⟨fun p hp => (hafter p hp).2, ?_⟩, ?_, .cons ha hcuts⟩
    · exact ((src.findAll_sorted _ _).filter _).sublist hsub
    · exact List.forall_mem_cons.mpr ⟨hmem, fun p hp => (hafter p hp).1⟩

/-- Whether what a rule accepts of a text is closed. -/
def Closes (src : Source) (entry : Rule α) : Prop :=
  ∀ (r : Span) (a : α), r.stop ≤ src.size → entry r = .ok a → Closed (src.slice r)

theorem charAt_of_mem_commas {p : Nat} (h : p ∈ src.findAll s [',']) :
    s.start ≤ p ∧ p < s.stop ∧ p < src.size ∧ src.charAt p = some ',' := by
  obtain ⟨h1, h2, h3⟩ := (Source.mem_findAll (by decide)).mp h
  rw [Source.matchesAt_cons, Bool.and_eq_true, beq_iff_eq] at h3
  simp only [List.length_singleton] at h2
  exact ⟨h1, by omega, by omega, h3.1⟩

namespace Closes

/-- No comma follows an accepted text that is itself within an accepted one. -/
theorem not_comma (hclosed : Closes src entry) {start p q : Nat} {a b : α} (hp : start ≤ p) (hpq : p < q)
    (hq : q ≤ src.size) (hcomma : src.charAt p = some ',') (ha : entry ⟨start, p⟩ = .ok a) :
    entry ⟨start, q⟩ ≠ .ok b := by
  intro hb
  have hp' := hclosed ⟨start, p⟩ a (by simp only; omega) ha
  have hq' := hclosed ⟨start, q⟩ b hq hb
  rw [src.slice_append hp (Nat.le_of_lt hpq), src.slice_cons hpq hcomma] at hq'
  exact hp'.not_closed_append rfl hq'

/-- **At most one comma of a range ends an entry at its start.** -/
theorem comma_unique (hclosed : Closes src entry) {p q : Nat} {a b : α} (hp : p ∈ src.findAll s [','])
    (hq : q ∈ src.findAll s [',']) (ha : entry ⟨s.start, p⟩ = .ok a) (hb : entry ⟨s.start, q⟩ = .ok b) : p = q := by
  obtain ⟨hp1, -, hp2, hp3⟩ := charAt_of_mem_commas hp
  obtain ⟨hq1, -, hq2, hq3⟩ := charAt_of_mem_commas hq
  rcases Nat.lt_trichotomy p q with hlt | heq | hlt
  · exact absurd hb (hclosed.not_comma hp1 hlt (Nat.le_of_lt hq2) hp3 ha)
  · exact heq
  · exact absurd ha (hclosed.not_comma hq1 hlt (Nat.le_of_lt hp2) hq3 hb)

/-- A comma that ends an entry is the one comma that does. -/
theorem firstEntries_eq (hclosed : Closes src entry) {p : Nat} {a : α} (hp : p ∈ src.findAll s [','])
    (ha : entry ⟨s.start, p⟩ = .ok a) : firstEntries entry s.start (src.findAll s [',']) = [(p, a)] := by
  refine eq_singleton_of_sorted (firstEntries_sorted (src.findAll_sorted _ _)) (mem_firstEntries.mpr ⟨hp, ha⟩) ?_
  rintro ⟨q, b⟩ hq
  obtain ⟨hq, hb⟩ := mem_firstEntries.mp hq
  obtain rfl := hclosed.comma_unique hq hp hb ha
  cases hb.symm.trans ha
  rfl

theorem separators_eq (hclosed : Closes src entry) : ∀ {cuts : List Nat} {s : Span} {as : List α},
    s.stop ≤ src.size → cuts.Pairwise (· < ·) →
      (∀ p ∈ cuts, s.start ≤ p ∧ p < s.stop ∧ src.charAt p = some ',') →
      List.Forall₂ (fun r a => entry r = .ok a) (s.cut cuts) as → src.separators s = cuts
  | [], s, _, hs, _, _, .cons ha .nil => Source.separators_of_closed (hclosed s _ hs ha)
  | p :: cuts, s, _, hs, hsorted, hcuts, .cons ha has => by
    obtain ⟨hfirst, hsorted⟩ := List.pairwise_cons.mp hsorted
    obtain ⟨h1, h2, h3⟩ := hcuts p List.mem_cons_self
    have hrest := separators_eq hclosed (s := ⟨p + 1, s.stop⟩) hs hsorted
      (fun q hq => ⟨hfirst q hq, (hcuts q (List.mem_cons_of_mem p hq)).2⟩) has
    rw [Source.separators_cons h1 h2 h3 (hclosed ⟨s.start, p⟩ _ (by simp only; omega) ha), hrest]

/-- **Entries are the pieces between the commas outside all brackets and quotes.** -/
theorem entries_separators (hclosed : Closes src entry) {opening closing : Char} {as : List α}
    (h : entries src opening closing entry s = .ok as) :
    List.Forall₂ (fun r a => entry r = .ok a)
      ((src.trim s).inner.cut (src.separators (src.trim s).inner)) as := by
  obtain ⟨-, -, -, hlast, -⟩ := entries_eq_ok.mp h
  have hsize : (src.trim s).stop - 1 < src.size := (Array.getElem?_eq_some_iff.mp hlast).1
  obtain ⟨cuts, hsorted, hmem, hcuts⟩ := entries_cut h
  rw [hclosed.separators_eq (Nat.le_of_lt hsize) hsorted (fun p hp => ?_) hcuts]
  · exact hcuts
  · obtain ⟨h1, h2, -, h3⟩ := charAt_of_mem_commas (hmem p hp)
    exact ⟨h1, h2, h3⟩

end Closes

end Rule

/-! ### What the grammar has between brackets -/

/-- The kinds of entries: the items of a list, the arguments of a call and the members of
an object. -/
inductive EntryKind
  | item
  | argument
  | member

namespace EntryKind

/-- What is made of an entry. -/
abbrev Tree : EntryKind → Type
  | item => Expr
  | argument => Argument
  | member => Entry

/-- The rule for an entry, from the rule for the expressions inside it. -/
def rule (src : Source) (nested : Rule Expr) : (kind : EntryKind) → Rule kind.Tree
  | item => nested
  | argument => Form.argument src nested
  | member => Form.keyValue src nested

/-- The entries of each kind are closed if the expressions inside them are. -/
theorem closes {src : Source} {nested : Rule Expr} (hn : Rule.Closes src nested) :
    ∀ kind : EntryKind, Rule.Closes src (kind.rule src nested)
  | item => hn
  | argument => fun _ _ hr ha =>
    (Form.argument_phrase (P := fun t _ => Closed t) hn hr ha).balanced fun _ _ => id
  | member => fun _ _ hr ha =>
    (Form.keyValue_phrase (P := fun t _ => Closed t) hn hr ha).balanced fun _ _ => id

end EntryKind

namespace Expr

/-- What is read is closed, with any budget. -/
theorem rule_closes (src : Source) (limit budget : Nat) : Rule.Closes src (rule src limit budget) :=
  rule_induction (P := fun t _ => Closed t) (fun _ _ h => h.balanced fun _ _ => id) src limit budget

/-- **What is read is closed, and entries are separated by the commas outside all brackets
and quotes.** At most one comma of a range ends a first entry, whatever the kind of the
entries, and the entries between two brackets are what stands between those commas. -/
theorem rule_separators (src : Source) (limit budget : Nat) :
    (∀ (s : Span) (e : Expr), s.stop ≤ src.size → rule src limit budget s = .ok e → Closed (src.slice s)) ∧
      ∀ (kind : EntryKind) (s : Span),
        (∀ p ∈ src.findAll s [','], ∀ q ∈ src.findAll s [','], ∀ a b,
          kind.rule src (rule src limit budget) ⟨s.start, p⟩ = .ok a →
            kind.rule src (rule src limit budget) ⟨s.start, q⟩ = .ok b → p = q) ∧
        ∀ (opening closing : Char) (as : List kind.Tree),
          Rule.entries src opening closing (kind.rule src (rule src limit budget)) s = .ok as →
            List.Forall₂ (fun r a => kind.rule src (rule src limit budget) r = .ok a)
              ((src.trim s).inner.cut (src.separators (src.trim s).inner)) as := by
  have hclosed := fun kind => EntryKind.closes (rule_closes src limit budget) kind
  refine ⟨rule_closes src limit budget, fun kind s => ⟨fun p hp q hq a b ha hb => ?_, fun _ _ _ h => ?_⟩⟩
  · exact (hclosed kind).comma_unique hp hq ha hb
  · exact (hclosed kind).entries_separators h

/-- Of the two commas in this list the second stands between quotes. -/
theorem rule_separators_list :
    Rule.entries (.ofString "[a,'],']") '[' ']' (rule (.ofString "[a,'],']") 1 1) ⟨0, 8⟩ =
        .ok [.selector (.identifier "a"), .raw "],"] ∧
      List.Forall₂ (fun r e => rule (.ofString "[a,'],']") 1 1 r = .ok e) [⟨1, 2⟩, ⟨3, 7⟩]
        [.selector (.identifier "a"), .raw "],"] ∧
      Closed ((Source.ofString "[a,'],']").slice ⟨3, 7⟩) :=
  ⟨by rfl, ((rule_separators (.ofString "[a,'],']") 1 1).2 .item ⟨0, 8⟩).2 '[' ']' _ (by rfl),
    (rule_separators (.ofString "[a,'],']") 1 1).1 ⟨3, 7⟩ _ (by decide) (by rfl)⟩

end Expr

end PathQuery
