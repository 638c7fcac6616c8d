/-
# Entries of closed texts

Every comma of a range is tried as the end of an entry. If the entry rule accepts
closed texts only, the commas at which it accepts are those that stand between
entries and no others (`Closed.eq_of_comma`). So two or more entries with commas
between them are told apart again (`Rule.separated_several`). One entry that itself
holds a comma is refused: no comma ends a first entry (`Rule.not_separated_single`).

Key theorems: `Rule.separated_several`, `Rule.separated_single`,
`Rule.not_separated_single`, `Rule.entries_iff`.
-/
import PathQuery.Proofs.Lexical

namespace PathQuery

namespace Rule

variable {α : Type} {R : Reader α} {src : Source} {s : Span}

/-- Whether what a rule accepts is closed. -/
def AcceptsClosed (R : Reader α) : Prop := ∀ {t : List Char} {a : α}, R.Accepts t a → Closed t

theorem join_cons (t u : List Char) (ts : List (List Char)) :
    [','].intercalate (t :: u :: ts) = t ++ ',' :: [','].intercalate (u :: ts) := rfl

/-- Closed entries with commas between them are balanced. -/
theorem balanced_join (hclosed : AcceptsClosed R) : ∀ {ts : List (List Char)} {xs : List α},
    List.Forall₂ R.Accepts ts xs → Balanced true ([','].intercalate ts)
  | _, _, .nil => .nil
  | _, _, .cons ht .nil => by
    rw [List.intercalate_singleton]
    exact (hclosed ht).mono
  | _, _, .cons ht (.cons hu hts) => by
    rw [join_cons]
    exact (hclosed ht).mono.comma (balanced_join hclosed (.cons hu hts))

/-- An entry lies in its sequence. -/
theorem infix_join {t : List Char} : ∀ {ts : List (List Char)}, t ∈ ts → t <:+: [','].intercalate ts
  | [u], h => by
    rw [List.intercalate_singleton]
    exact List.mem_singleton.mp h ▸ List.infix_refl t
  | u :: v :: ts, h => by
    rw [join_cons]
    rcases List.mem_cons.mp h with rfl | h
    · exact (List.prefix_append t _).isInfix
    · exact (infix_join h).trans ⟨u ++ [','], [], by simp⟩

/-- The commas of a range are where its text can be cut at a comma. -/
theorem mem_commas (hs : s.start ≤ s.stop) (hstop : s.stop ≤ src.size) {p : Nat} :
    p ∈ src.findAll s [','] ↔ ∃ x y, src.slice s = x ++ ',' :: y ∧ p = s.start + x.length := by
  constructor
  · intro h
    have hb := src.findAll_bounds h
    have hcut := src.slice_of_mem_findAll ⟨Nat.le_refl _, Nat.le_refl _⟩ h
    simp only [List.length_singleton] at hb
    refine ⟨_, _, hcut, ?_⟩
    rw [src.length_slice (by simp only; omega)]
    simp only [Span.length]
    omega
  · rintro ⟨x, y, he, rfl⟩
    have hlen := congrArg List.length he
    rw [src.length_slice hstop] at hlen
    simp only [Span.length, List.length_append, List.length_cons] at hlen
    have hget := src.getElem?_slice s x.length
    rw [he, List.getElem?_append_right (Nat.le_refl _), Nat.sub_self, List.getElem?_cons_zero,
      if_pos (by omega)] at hget
    refine (Source.mem_findAll (by decide)).mpr ⟨Nat.le_add_right _ _, ?_, ?_⟩
    · simp only [List.length_singleton]
      omega
    · rw [Source.matchesAt_cons, ← hget]
      rfl

/-- The two sides of a comma. -/
theorem slice_comma (hs : s.start ≤ s.stop) (hstop : s.stop ≤ src.size) {x y : List Char}
    (he : src.slice s = x ++ ',' :: y) : s.start + x.length < s.stop ∧
      src.slice ⟨s.start, s.start + x.length⟩ = x ∧ src.slice ⟨s.start + x.length + 1, s.stop⟩ = y := by
  have hlen := congrArg List.length he
  rw [src.length_slice hstop] at hlen
  simp only [Span.length, List.length_append, List.length_cons] at hlen
  have hmem := (mem_commas hs hstop).mpr ⟨x, y, he, rfl⟩
  have hcut := src.slice_of_mem_findAll ⟨Nat.le_refl _, Nat.le_refl _⟩ hmem
  have hx : (src.slice ⟨s.start, s.start + x.length⟩).length = x.length := by
    rw [src.length_slice (by simp only; omega), Span.length, Nat.add_sub_cancel_left]
  obtain ⟨h1, h2⟩ := List.append_inj (hcut.symm.trans he) hx
  exact ⟨by omega, h1, (List.cons.inj h2).2⟩

/-- Entries with commas between them are told apart, if each comma that the search has
passed by ends no entry. -/
theorem entriesFrom_join (hR : R.Local) (hclosed : AcceptsClosed R) {stop : Nat} (hstop : stop ≤ src.size) :
    ∀ {commas : List Nat} {start : Nat} {t : List Char} {ts : List (List Char)} {a : α} {as : List α},
      start ≤ stop → src.slice ⟨start, stop⟩ = [','].intercalate (t :: ts) → R.Accepts t a →
      List.Forall₂ R.Accepts ts as → commas.Pairwise (· < ·) →
      (∀ p ∈ commas, p ∈ src.findAll ⟨start, stop⟩ [',']) →
      (∀ p ∈ src.findAll ⟨start, stop⟩ [','], p ∉ commas →
        (∀ c ∈ commas, p < c) ∧ ∀ b, R src ⟨start, p⟩ ≠ .ok b) →
      entriesFrom (R src) stop commas start = .ok (a :: as)
  | [], start, t, ts, a, as, hle, htext, ha, has, hsorted, hin, hpassed => by
    cases has with
    | nil =>
      rw [List.intercalate_singleton] at htext
      rw [entriesFrom, (hR.eq_ok hle hstop).mpr (by rwa [htext])]
    | cons hb hbs =>
      rw [join_cons] at htext
      obtain ⟨hlt, hx, -⟩ := slice_comma hle hstop htext
      refine absurd ?_ ((hpassed _ ((mem_commas hle hstop).mpr ⟨_, _, htext, rfl⟩) List.not_mem_nil).2 a)
      exact (hR.eq_ok (Nat.le_add_right _ _) (by simp only at hlt ⊢; omega)).mpr (by rwa [hx])
  | comma :: commas, start, t, ts, a, as, hle, htext, ha, has, hsorted, hin, hpassed => by
    obtain ⟨hfirst, hrest⟩ := List.pairwise_cons.mp hsorted
    obtain ⟨x, y, hcut, rfl⟩ := (mem_commas hle hstop).mp (hin comma List.mem_cons_self)
    obtain ⟨hlt, hx, hy⟩ := slice_comma hle hstop hcut
    simp only at hlt hx hy
    have hentry : ∀ b, R src ⟨start, start + x.length⟩ = .ok b ↔ R.Accepts x b := by
      intro b
      rw [hR.eq_ok (Nat.le_add_right _ _) (by simp only; omega), hx]
    cases hr : R src ⟨start, start + x.length⟩ with
    | ok b =>
      -- the comma ends an entry, so it is the one after the first text
      have hb := (hentry b).mp hr
      cases has with
      | nil =>
        rw [List.intercalate_singleton, hcut] at htext
        exact absurd (htext ▸ hclosed ha) ((hclosed hb).not_closed_append rfl)
      | cons hc hcs =>
        rw [join_cons, hcut] at htext
        obtain ⟨rfl, rfl⟩ := (hclosed hb).eq_of_comma (hclosed ha) htext
        obtain rfl : b = a := Except.ok.inj (hb.symm.trans ha)
        have hafter : ∀ p ∈ src.findAll ⟨start + x.length + 1, stop⟩ [','],
            p ∈ src.findAll ⟨start, stop⟩ [','] ∧ start + x.length < p := by
          intro p hp
          obtain ⟨h1, h2, h3⟩ := (Source.mem_findAll (by decide)).mp hp
          simp only at h1
          exact ⟨(Source.mem_findAll (by decide)).mpr ⟨by simp only; omega, h2, h3⟩, by omega⟩
        have hbehind := entriesFrom_join hR hclosed hstop (Nat.succ_le_of_lt hlt) hy hc hcs hrest
          (fun p hp => by
            obtain ⟨-, h2, h3⟩ := (Source.mem_findAll (by decide)).mp (hin p (List.mem_cons_of_mem _ hp))
            exact (Source.mem_findAll (by decide)).mpr ⟨hfirst p hp, h2, h3⟩)
          (fun p hp hout => by
            obtain ⟨hp, hgt⟩ := hafter p hp
            have hnew : p ∉ (start + x.length) :: commas := by
              simp only [List.mem_cons, not_or]
              exact ⟨by omega, hout⟩
            exact absurd ((hpassed p hp hnew).1 _ List.mem_cons_self) (Nat.lt_asymm hgt))
        simp only [entriesFrom, hr, hbehind]
    | error f =>
      simp only [entriesFrom, hr]
      refine entriesFrom_join hR hclosed hstop hle htext ha has hrest
        (fun p hp => hin p (List.mem_cons_of_mem _ hp)) fun p hp hout => ?_
      by_cases heq : p = start + x.length
      · subst heq
        exact ⟨hfirst, fun b hb => nomatch hr.symm.trans hb⟩
      · obtain ⟨hlt', hrefused⟩ := hpassed p hp fun h => (List.mem_cons.mp h).elim heq hout
        exact ⟨fun c hc => hlt' c (List.mem_cons_of_mem _ hc), hrefused⟩

/-! ### First entries -/

theorem firstEntries_sorted {entry : Rule α} {start : Nat} {commas : List Nat} (h : commas.Pairwise (· < ·)) :
    (firstEntries entry start commas).Pairwise (·.1 < ·.1) := by
  refine h.filterMap _ fun p q hpq e he e' he' => ?_
  obtain ⟨a, -, rfl⟩ := Option.map_eq_some_iff.mp he
  obtain ⟨a', -, rfl⟩ := Option.map_eq_some_iff.mp he'
  exact hpq

theorem eq_singleton_of_sorted {x : Nat × α} : ∀ {xs : List (Nat × α)}, xs.Pairwise (·.1 < ·.1) → x ∈ xs →
    (∀ y ∈ xs, y = x) → xs = [x]
  | [], _, hmem, _ => nomatch hmem
  | [y], _, _, hall => by rw [hall y List.mem_cons_self]
  | y :: z :: xs, hs, _, hall => by
    have hyz := (List.pairwise_cons.mp hs).1 z List.mem_cons_self
    rw [hall y List.mem_cons_self, hall z (List.mem_cons_of_mem _ List.mem_cons_self)] at hyz
    exact absurd hyz (Nat.lt_irrefl _)

/-- **Two or more entries with commas between them are told apart.** -/
theorem separated_several (hR : R.Local) (hclosed : AcceptsClosed R) (hs : s.start ≤ s.stop)
    (hstop : s.stop ≤ src.size) {t u : List Char} {ts : List (List Char)} {a b : α} {as : List α}
    (htext : src.slice s = [','].intercalate (t :: u :: ts)) (ha : R.Accepts t a) (hb : R.Accepts u b)
    (has : List.Forall₂ R.Accepts ts as) : Separated src (R src) s (a :: b :: as) := by
  rw [join_cons] at htext
  obtain ⟨hlt, hx, hy⟩ := slice_comma hs hstop htext
  have hmem := (mem_commas hs hstop).mpr ⟨_, _, htext, rfl⟩
  have hentry : ∀ {x y : List Char}, src.slice s = x ++ ',' :: y →
      ∀ c, R src ⟨s.start, s.start + x.length⟩ = .ok c ↔ R.Accepts x c := by
    intro x y he c
    obtain ⟨hlt, hx, -⟩ := slice_comma hs hstop he
    rw [hR.eq_ok (Nat.le_add_right _ _) (by simp only; omega), hx]
  have hfirst : firstEntries (R src) s.start (src.findAll s [',']) = [(s.start + t.length, a)] := by
    refine eq_singleton_of_sorted (firstEntries_sorted (src.findAll_sorted s [',']))
      (mem_firstEntries.mpr ⟨hmem, (hentry htext a).mpr ha⟩) fun ⟨p, c⟩ hp => ?_
    obtain ⟨hp, hc⟩ := mem_firstEntries.mp hp
    obtain ⟨x, y, he, rfl⟩ := (mem_commas hs hstop).mp hp
    have hc := (hentry he c).mp hc
    obtain ⟨rfl, -⟩ := (hclosed hc).eq_of_comma (hclosed ha) (he.symm.trans htext)
    rw [Except.ok.inj (hc.symm.trans ha)]
  have hafter : ∀ p ∈ src.findAll ⟨s.start + t.length + 1, s.stop⟩ [','],
      p ∈ (src.findAll s [',']).filter (s.start + t.length < ·) := by
    intro p hp
    obtain ⟨h1, h2, h3⟩ := (Source.mem_findAll (by decide)).mp hp
    simp only at h1
    refine List.mem_filter.mpr ⟨(Source.mem_findAll (by decide)).mpr ⟨by omega, h2, h3⟩, ?_⟩
    exact decide_eq_true (by omega)
  refine .several hfirst (entriesFrom_join hR hclosed hstop (Nat.succ_le_of_lt hlt) hy hb has
    ((src.findAll_sorted s [',']).filter _) (fun p hp => ?_) fun p hp hout => absurd (hafter p hp) hout)
  obtain ⟨hp, hgt⟩ := List.mem_filter.mp hp
  obtain ⟨-, h2, h3⟩ := (Source.mem_findAll (by decide)).mp hp
  exact (Source.mem_findAll (by decide)).mpr ⟨of_decide_eq_true hgt, h2, h3⟩

/-- One entry without a comma is read as it is. -/
theorem separated_single (hR : R.Local) (hs : s.start ≤ s.stop) (hstop : s.stop ≤ src.size) {a : α}
    (hcomma : ',' ∉ src.slice s) (ha : R.Accepts (src.slice s) a) : Separated src (R src) s [a] := by
  refine .single (List.eq_nil_iff_forall_not_mem.mpr fun p hp => hcomma ?_) ((hR.eq_ok hs hstop).mpr ha)
  obtain ⟨x, y, he, -⟩ := (mem_commas hs hstop).mp hp
  rw [he]
  exact List.mem_append_right x List.mem_cons_self

/-- **One entry with a comma in it is refused.** No comma ends a first entry, for what
stands before it would be closed. -/
theorem not_separated_single (hR : R.Local) (hclosed : AcceptsClosed R) (hs : s.start ≤ s.stop)
    (hstop : s.stop ≤ src.size) {a : α} (hcomma : ',' ∈ src.slice s) (ha : R.Accepts (src.slice s) a)
    (as : List α) : ¬ Separated src (R src) s as := by
  intro h
  cases h with
  | single hnone _ =>
    obtain ⟨x, y, he⟩ := List.append_of_mem hcomma
    exact absurd ((mem_commas hs hstop).mpr ⟨x, y, he, rfl⟩) (by rw [hnone]; exact List.not_mem_nil)
  | @several b bs comma hfirst _ =>
    obtain ⟨hp, hb⟩ := mem_firstEntries.mp (hfirst ▸ List.mem_singleton_self (comma, b))
    obtain ⟨x, y, he, rfl⟩ := (mem_commas hs hstop).mp hp
    obtain ⟨hlt, hx, -⟩ := slice_comma hs hstop he
    have hb := (hR.eq_ok (Nat.le_add_right _ _) (by simp only; omega)).mp hb
    rw [hx] at hb
    exact absurd (he ▸ hclosed ha) ((hclosed hb).not_closed_append rfl)

/-! ### Between brackets -/

/-- Entries are read from a text between the two brackets. -/
theorem entries_enclosed {a b : Char} {t : List Char} (ha : a ≠ ' ') (hb : b ≠ ' ') {as : List α} :
    Reader.Accepts (fun src => entries src a b (R src)) (a :: t ++ [b]) as ↔
      Separated (.ofChars (a :: t ++ [b])) (R (.ofChars (a :: t ++ [b])))
        (Span.inner ⟨0, (a :: t ++ [b]).length⟩) as := by
  have hlen : (a :: t ++ [b]).length = t.length + 2 := by simp
  have hfirst : (Source.ofChars (a :: t ++ [b])).charAt 0 = some a := by rw [Source.charAt_ofChars]; rfl
  unfold Reader.Accepts
  rw [entries_eq_ok, Source.trim_tight (.of_enclosed t ha hb)]
  refine ⟨fun h => h.2.2.2.2, fun h => ⟨by simp only; omega, ?_, hfirst, Source.charAt_closing t, h⟩⟩
  simp only [Span.length]
  omega

/-- **Several entries between brackets.** -/
theorem entries_several (hR : R.Local) (hclosed : AcceptsClosed R) {a b : Char} (ha : a ≠ ' ') (hb : b ≠ ' ')
    {t u : List Char} {ts : List (List Char)} {x y : α} {xs : List α} (hx : R.Accepts t x)
    (hy : R.Accepts u y) (hxs : List.Forall₂ R.Accepts ts xs) :
    Reader.Accepts (fun src => entries src a b (R src)) (a :: [','].intercalate (t :: u :: ts) ++ [b])
      (x :: y :: xs) := by
  refine (entries_enclosed ha hb).mpr (separated_several hR hclosed ?_ (Nat.sub_le _ _) (Source.slice_inner _) hx hy hxs)
  simp only [Span.inner, List.length_append, List.length_cons]
  omega

/-- **One entry between brackets** is read if it has no comma in it, and then as itself. -/
theorem entries_one (hR : R.Local) (hclosed : AcceptsClosed R) {a b : Char} (ha : a ≠ ' ') (hb : b ≠ ' ')
    {t : List Char} {x : α} (hx : R.Accepts t x) {xs : List α} :
    Reader.Accepts (fun src => entries src a b (R src)) (a :: t ++ [b]) xs ↔ ',' ∉ t ∧ xs = [x] := by
  have hle : (Span.inner ⟨0, (a :: t ++ [b]).length⟩).start ≤ (Span.inner ⟨0, (a :: t ++ [b]).length⟩).stop := by
    simp [Span.inner]
  have hstop : (Span.inner ⟨0, (a :: t ++ [b]).length⟩).stop ≤ (Source.ofChars (a :: t ++ [b])).size :=
    Nat.sub_le _ _
  rw [entries_enclosed ha hb]
  by_cases hcomma : ',' ∈ t
  · refine ⟨fun h => absurd h ?_, fun h => absurd hcomma h.1⟩
    exact not_separated_single hR hclosed hle hstop (by rwa [Source.slice_inner]) (by rwa [Source.slice_inner]) xs
  · have hsingle := separated_single hR hle hstop (by rwa [Source.slice_inner]) (by rwa [Source.slice_inner])
    refine ⟨fun h => ⟨hcomma, ?_⟩, fun h => h.2 ▸ hsingle⟩
    exact Except.ok.inj (((entries_enclosed ha hb).mpr h).symm.trans ((entries_enclosed ha hb).mpr hsingle))

/-- **Entries between brackets**, two or more or one without a comma, are read as what
they are. One entry with a comma is refused. -/
theorem entries_iff (hR : R.Local) (hclosed : AcceptsClosed R) {a b : Char} (ha : a ≠ ' ') (hb : b ≠ ' ')
    {ts : List (List Char)} {xs ys : List α} (hne : ts ≠ []) (hxs : List.Forall₂ R.Accepts ts xs) :
    Reader.Accepts (fun src => entries src a b (R src)) (a :: [','].intercalate ts ++ [b]) ys ↔
      (2 ≤ ts.length ∨ ∀ t ∈ ts, ',' ∉ t) ∧ ys = xs := by
  cases hxs with
  | nil => exact absurd rfl hne
  | @cons t x ts xs hx hxs =>
    cases hxs with
    | nil =>
      rw [List.intercalate_singleton, entries_one hR hclosed ha hb hx]
      simp
    | cons hy hxs =>
      have hread := entries_several hR hclosed ha hb hx hy hxs
      constructor
      · exact fun h => ⟨.inl (by simp), Except.ok.inj (h.symm.trans hread)⟩
      · rintro ⟨-, rfl⟩
        exact hread

end Rule

end PathQuery
