/-
# Where entries are cut

Between two brackets every comma is tried as the end of a first entry, and entries are read only
if exactly one will do. From there on an entry ends at the first comma that leaves one before it,
until no comma does (`Rule.Cuts`), and what is left has to be an entry too. This holds for any rule
for entries, also for one that takes commas for parts of an entry or accepts nothing. The pieces are
all of the text between the brackets but the commas that are cut at, and each of the two failures
tells which of the two conditions the text breaks (`Rule.entries_separation`).

Key definitions: `Span.afterCuts`, `Rule.Ends`, `Rule.Cuts`, `Rule.Separators`, `Rule.FailsWith`.
Key theorems: `Rule.Cuts.unique`, `Rule.entriesFrom_cuts`, `Rule.entries_separation`.
-/
import Mathlib.Data.List.Forall2
import Mathlib.Data.List.Sort
import PathQuery.Proofs.Limit
import PathQuery.Proofs.Nesting
import PathQuery.Rule.Plain

namespace PathQuery

/-- The part of a range after the last of some positions. -/
def Span.afterCuts : Span → List Nat → Span
  | s, [] => s
  | s, p :: ps => afterCuts ⟨p + 1, s.stop⟩ ps

/-! ### Commas behind a position -/

namespace Source

variable {src : Source} {s : Span} {p b : Nat}

theorem mem_findAll_behind (h : p ∈ src.findAll s [',']) (hp : b ≤ p) : p ∈ src.findAll ⟨b, s.stop⟩ [','] :=
  (mem_findAll (by decide)).mpr ⟨hp, ((mem_findAll (by decide)).mp h).2⟩

/-- The commas behind a position are found by a search that begins there. -/
theorem findAll_filter (hp : s.start ≤ p) :
    (src.findAll s [',']).filter (p < ·) = src.findAll ⟨p + 1, s.stop⟩ [','] := by
  refine List.Pairwise.eq_of_mem_iff ((src.findAll_sorted s _).filter _) (src.findAll_sorted _ _) fun q => ?_
  rw [List.mem_filter, decide_eq_true_eq]
  constructor
  · exact fun h => mem_findAll_behind h.1 h.2
  · intro h
    obtain ⟨hstart, hrest⟩ := (mem_findAll (by decide)).mp h
    exact ⟨(mem_findAll (by decide)).mpr ⟨Nat.le_trans (Nat.le_succ_of_le hp) hstart, hrest⟩, hstart⟩

/-- The commas after the first are found by a search that begins behind it. -/
theorem findAll_tail {rest : List Nat} (h : src.findAll s [','] = p :: rest) :
    src.findAll ⟨p + 1, s.stop⟩ [','] = rest := by
  have hsorted := src.findAll_sorted s [',']
  rw [h, List.pairwise_cons] at hsorted
  have hp : p ∈ src.findAll s [','] := h ▸ List.mem_cons_self
  rw [← findAll_filter (src.findAll_bounds hp).1, h, List.filter_cons_of_neg (by simp), List.filter_eq_self]
  exact fun q hq => decide_eq_true (hsorted.1 q hq)

end Source

namespace Rule

variable {α : Type} {src : Source} {entry : Rule α} {r : Span} {p : Nat} {cuts : List Nat}

/-! ### The cuts -/

/-- Whether a first entry of a range may end at a comma of it. -/
def Ends (src : Source) (entry : Rule α) (r : Span) (p : Nat) : Prop :=
  p ∈ src.findAll r [','] ∧ ∃ a, entry ⟨r.start, p⟩ = .ok a

/-- The commas at which a range is cut: each is the first at which an entry may end, and behind the
last of them there is no such comma. -/
inductive Cuts (src : Source) (entry : Rule α) : Span → List Nat → Prop
  | last {r : Span} : (∀ p, ¬ Ends src entry r p) → Cuts src entry r []
  | next {r : Span} {p : Nat} {cuts : List Nat} : Ends src entry r p → (∀ q, Ends src entry r q → p ≤ q) →
      Cuts src entry ⟨p + 1, r.stop⟩ cuts → Cuts src entry r (p :: cuts)

/-- The commas at which entries are told apart: none if there is none, and else one that alone may
end a first entry, and from there on those at which the rest is cut. -/
inductive Separators (src : Source) (entry : Rule α) (r : Span) : List Nat → Prop
  | none : ',' ∉ src.slice r → Separators src entry r []
  | some {first : Nat} {rest : List Nat} : (∀ p, Ends src entry r p ↔ p = first) →
      Cuts src entry ⟨first + 1, r.stop⟩ rest → Separators src entry r (first :: rest)

/-- A range can be cut in one way only. -/
theorem Cuts.unique (h : Cuts src entry r cuts) : ∀ {cuts' : List Nat}, Cuts src entry r cuts' → cuts = cuts' := by
  induction h with
  | last hnone =>
    intro cuts' h'
    cases h' with
    | last _ => rfl
    | next hends _ _ => exact absurd hends (hnone _)
  | next hends hfirst _ ih =>
    intro cuts' h'
    cases h' with
    | last hnone => exact absurd hends (hnone _)
    | next hends' hfirst' hrest =>
      obtain rfl := Nat.le_antisymm (hfirst _ hends') (hfirst' _ hends)
      rw [ih hrest]

theorem exists_cut (r : Span) : ∀ cuts : List Nat, ∃ q qs, r.cut cuts = q :: qs
  | [] => ⟨r, [], rfl⟩
  | _ :: _ => ⟨_, _, rfl⟩

theorem Ends.slice_cut (h : Ends src entry r p)
    (hrest : src.slice ⟨p + 1, r.stop⟩ = [','].intercalate ((Span.cut ⟨p + 1, r.stop⟩ cuts).map src.slice)) :
    src.slice r = [','].intercalate ((r.cut (p :: cuts)).map src.slice) := by
  obtain ⟨q, qs, hcut⟩ := exists_cut ⟨p + 1, r.stop⟩ cuts
  calc src.slice r = src.slice ⟨r.start, p⟩ ++ ',' :: src.slice ⟨p + 1, r.stop⟩ :=
        src.slice_of_mem_findAll ⟨Nat.le_refl _, Nat.le_refl _⟩ h.1
    _ = src.slice ⟨r.start, p⟩ ++ ',' :: [','].intercalate (src.slice q :: qs.map src.slice) := by
        rw [hrest, hcut, List.map_cons]
    _ = [','].intercalate ((r.cut (p :: cuts)).map src.slice) := by
        rw [Span.cut, hcut, List.map_cons, List.map_cons, join_cons]

/-- **The pieces with commas between them are the text.** -/
theorem Cuts.slice (h : Cuts src entry r cuts) : src.slice r = [','].intercalate ((r.cut cuts).map src.slice) := by
  induction h with
  | last _ => exact (List.intercalate_singleton).symm
  | next hends _ _ ih => exact hends.slice_cut ih

theorem Separators.slice (h : Separators src entry r cuts) :
    src.slice r = [','].intercalate ((r.cut cuts).map src.slice) := by
  cases h with
  | none _ => exact (List.intercalate_singleton).symm
  | some honly hrest => exact Ends.slice_cut ((honly _).mpr rfl) hrest.slice

theorem forall₂_singleton {q : Span} :
    (∃ as, List.Forall₂ (fun q a => entry q = .ok a) [q] as) ↔ ∃ a, entry q = .ok a := by
  simp [List.forall₂_cons_left_iff]

theorem Ends.forall₂_iff (h : Ends src entry r p)
    (hrest : (∃ as, List.Forall₂ (fun q a => entry q = .ok a) (Span.cut ⟨p + 1, r.stop⟩ cuts) as) ↔
      ∃ a, entry (Span.afterCuts ⟨p + 1, r.stop⟩ cuts) = .ok a) :
    (∃ as, List.Forall₂ (fun q a => entry q = .ok a) (r.cut (p :: cuts)) as) ↔
      ∃ a, entry (r.afterCuts (p :: cuts)) = .ok a := by
  obtain ⟨a, ha⟩ := h.2
  rw [Span.afterCuts, ← hrest, Span.cut]
  constructor
  · rintro ⟨_, has⟩
    obtain ⟨_, as, -, has, -⟩ := List.forall₂_cons_left_iff.mp has
    exact ⟨as, has⟩
  · rintro ⟨as, has⟩
    exact ⟨a :: as, .cons ha has⟩

/-- **All pieces are entries if the last one is.** -/
theorem Cuts.forall₂_iff (h : Cuts src entry r cuts) :
    (∃ as, List.Forall₂ (fun q a => entry q = .ok a) (r.cut cuts) as) ↔ ∃ a, entry (r.afterCuts cuts) = .ok a := by
  induction h with
  | last _ => exact forall₂_singleton
  | next hends _ _ ih => exact hends.forall₂_iff ih

theorem Separators.forall₂_iff (h : Separators src entry r cuts) :
    (∃ as, List.Forall₂ (fun q a => entry q = .ok a) (r.cut cuts) as) ↔ ∃ a, entry (r.afterCuts cuts) = .ok a := by
  cases h with
  | none _ => exact forall₂_singleton
  | some honly hrest => exact ((honly _).mpr rfl).forall₂_iff hrest.forall₂_iff

/-! ### The search -/

theorem entriesFrom_nil {stop start : Nat} {as : List α} :
    entriesFrom entry stop [] start = .ok as ↔ List.Forall₂ (fun q a => entry q = .ok a) [⟨start, stop⟩] as := by
  simp only [List.forall₂_cons_left_iff, List.forall₂_nil_left_iff]
  rw [entriesFrom]
  cases entry ⟨start, stop⟩ with
  | error f => simp
  | ok a => simp [eq_comm]

theorem entriesFrom_cons {stop start comma : Nat} {commas : List Nat} {a : α} {as : List α}
    (ha : entry ⟨start, comma⟩ = .ok a) : entriesFrom entry stop (comma :: commas) start = .ok as ↔
      ∃ bs, entriesFrom entry stop commas (comma + 1) = .ok bs ∧ as = a :: bs := by
  rw [entriesFrom, ha]
  cases entriesFrom entry stop commas (comma + 1) with
  | error f => simp
  | ok bs => simp [eq_comm]

/-- **The search cuts where it should.** It has come to `b` and passed no comma that ends an entry. -/
theorem entriesFrom_cuts {stop : Nat} : ∀ {commas : List Nat} (start : Nat) {b : Nat}, start ≤ b →
    src.findAll ⟨b, stop⟩ [','] = commas → (∀ p, p < b → ¬ Ends src entry ⟨start, stop⟩ p) →
      ∃ cuts, Cuts src entry ⟨start, stop⟩ cuts ∧ ∀ as, entriesFrom entry stop commas start = .ok as ↔
        List.Forall₂ (fun q a => entry q = .ok a) (Span.cut ⟨start, stop⟩ cuts) as
  | [], start, b, hb, hcommas, hpassed => by
    refine ⟨[], .last fun p hp => ?_, fun as => entriesFrom_nil⟩
    rcases Nat.lt_or_ge p b with hlt | hge
    · exact hpassed p hlt hp
    · have hmem := Source.mem_findAll_behind hp.1 hge
      rw [hcommas] at hmem
      exact nomatch hmem
  | comma :: commas, start, b, hb, hcommas, hpassed => by
    have hmem : comma ∈ src.findAll ⟨b, stop⟩ [','] := hcommas ▸ List.mem_cons_self
    have hbehind := Source.findAll_tail hcommas
    obtain ⟨hstart, hfound⟩ := (Source.mem_findAll (by decide)).mp hmem
    -- a comma that ends an entry here is none before `comma`
    have hlater : ∀ p, Ends src entry ⟨start, stop⟩ p → comma ≤ p := by
      intro p hp
      refine Nat.le_of_not_lt fun hlt => ?_
      rcases Nat.lt_or_ge p b with hpb | hpb
      · exact hpassed p hpb hp
      · have hp' := Source.mem_findAll_behind hp.1 hpb
        have hsorted := src.findAll_sorted ⟨b, stop⟩ [',']
        rw [hcommas] at hp' hsorted
        rcases List.mem_cons.mp hp' with rfl | hp'
        · exact absurd hlt (Nat.lt_irrefl _)
        · exact absurd hlt (Nat.lt_asymm ((List.pairwise_cons.mp hsorted).1 p hp'))
    cases ha : entry ⟨start, comma⟩ with
    | ok a =>
      obtain ⟨cuts, hcuts, hresult⟩ := entriesFrom_cuts (comma + 1) (Nat.le_refl _) hbehind fun p hp hends =>
        absurd (src.findAll_bounds hends.1).1 (Nat.not_le.mpr hp)
      have hends : Ends src entry ⟨start, stop⟩ comma :=
        ⟨(Source.mem_findAll (by decide)).mpr ⟨Nat.le_trans hb hstart, hfound⟩, a, ha⟩
      refine ⟨comma :: cuts, .next hends hlater hcuts, fun as => ?_⟩
      rw [entriesFrom_cons ha, Span.cut, List.forall₂_cons_left_iff]
      constructor
      · rintro ⟨bs, hbs, rfl⟩
        exact ⟨a, bs, ha, (hresult bs).mp hbs, rfl⟩
      · rintro ⟨a', bs, ha', hbs, rfl⟩
        cases ha.symm.trans ha'
        exact ⟨bs, (hresult bs).mpr hbs, rfl⟩
    | error f =>
      obtain ⟨cuts, hcuts, hresult⟩ := entriesFrom_cuts start (Nat.le_succ_of_le (Nat.le_trans hb hstart)) hbehind
        fun p hp hends => by
          obtain rfl := Nat.le_antisymm (Nat.le_of_lt_succ hp) (hlater p hends)
          obtain ⟨a, ha'⟩ := hends.2
          exact nomatch ha.symm.trans ha'
      refine ⟨cuts, hcuts, fun as => ?_⟩
      rw [← hresult, entriesFrom, ha]

/-- A range can be cut, and the search does it. -/
theorem exists_cuts (src : Source) (entry : Rule α) (r : Span) : ∃ cuts, Cuts src entry r cuts ∧
    ∀ as, entriesFrom entry r.stop (src.findAll r [',']) r.start = .ok as ↔
      List.Forall₂ (fun q a => entry q = .ok a) (r.cut cuts) as :=
  entriesFrom_cuts r.start (Nat.le_refl _) rfl fun _ hp hends =>
    absurd (src.findAll_bounds hends.1).1 (Nat.not_le.mpr hp)

/-! ### Between brackets -/

/-- Whether a rule fails for a reason with these words. -/
def FailsWith (result : Except Failure α) (message : String) : Prop :=
  ∃ f, result = .error f ∧ f.reason.message = message

section

variable {opening closing : Char} {s : Span}

theorem lt_of_first (h : src.first s = some opening) : s.start < s.stop := by
  unfold Source.first at h
  split at h
  · assumption
  · cases h

/-- What the brackets hold, as it is tried. -/
theorem entries_between (hopen : src.first (src.trim s) = some opening)
    (hclose : src.last (src.trim s) = some closing) (hlen : 2 ≤ (src.trim s).length) :
    entries src opening closing entry s =
      if (src.findAll (src.trim s).inner [',']).isEmpty then (entry (src.trim s).inner).map fun a => [a]
      else
        match firstEntries entry (src.trim s).inner.start (src.findAll (src.trim s).inner [',']) with
        | [] => fail "multi-select" .noFirstEntry (src.trim s).inner.start
        | [(comma, a)] =>
          match entriesFrom entry (src.trim s).inner.stop
              ((src.findAll (src.trim s).inner [',']).filter (comma < ·)) (comma + 1) with
          | .ok as => .ok (a :: as)
          | .error _ => fail "multi-select" .ambiguousSeparation (src.trim s).start
        | _ => fail "multi-select" .ambiguousSeparation (src.trim s).start := by
  have hlt : ¬ s.stop ≤ s.start := fun hle => by
    rw [src.trim_of_le hle] at hopen
    exact absurd (lt_of_first hopen) (Nat.not_lt.mpr hle)
  unfold entries
  rw [if_neg hlt]
  simp only
  have hclosed := not_or.mpr ⟨Nat.not_lt.mpr hlen, not_not_intro hclose⟩
  exact (if_neg (not_not_intro hopen)).trans (if_neg hclosed)

theorem mem_slice_of_mem_findAll (h : p ∈ src.findAll r [',']) : ',' ∈ src.slice r := by
  rw [src.slice_of_mem_findAll ⟨Nat.le_refl _, Nat.le_refl _⟩ h]
  exact List.mem_append_right _ List.mem_cons_self

/-- Without a comma what is between the brackets is one entry. -/
theorem entries_single (hopen : src.first (src.trim s) = some opening)
    (hclose : src.last (src.trim s) = some closing) (hlen : 2 ≤ (src.trim s).length)
    (hcomma : ',' ∉ src.slice (src.trim s).inner) :
    entries src opening closing entry s = (entry (src.trim s).inner).map fun a => [a] := by
  have hnone : src.findAll (src.trim s).inner [','] = [] :=
    List.eq_nil_iff_forall_not_mem.mpr fun p hp => hcomma (mem_slice_of_mem_findAll hp)
  rw [entries_between hopen hclose hlen, hnone]
  rfl

/-- A comma between the brackets is one that is tried. -/
theorem exists_comma (hclose : src.last (src.trim s) = some closing) (hcomma : ',' ∈ src.slice (src.trim s).inner) :
    2 ≤ (src.trim s).length ∧ (src.findAll (src.trim s).inner [',']).isEmpty = false := by
  obtain ⟨p, hstart, hstop, hp⟩ := Source.mem_slice hcomma
  have hlt : (src.trim s).start < (src.trim s).stop := by
    simp only [Span.inner] at hstart hstop
    omega
  have hsize : (src.trim s).stop - 1 < src.size := by
    unfold Source.last at hclose
    rw [if_pos hlt] at hclose
    exact (Array.getElem?_eq_some_iff.mp hclose).1
  have hmem : p ∈ src.findAll (src.trim s).inner [','] := by
    refine (Source.mem_findAll (by decide)).mpr ⟨hstart, ?_, ?_⟩
    · simp only [Span.inner, List.length_singleton] at hstop ⊢
      omega
    · rw [Source.matchesAt_cons, hp]
      rfl
  constructor
  · simp only [Span.inner, Span.length] at hstart hstop ⊢
    omega
  · exact Bool.eq_false_iff.mpr fun h => List.ne_nil_of_mem hmem (List.isEmpty_iff.mp h)

/-- Without a first entry. -/
theorem entries_of_none (hopen : src.first (src.trim s) = some opening)
    (hclose : src.last (src.trim s) = some closing) (hcomma : ',' ∈ src.slice (src.trim s).inner)
    (hnone : ∀ p, ¬ Ends src entry (src.trim s).inner p) :
    entries src opening closing entry s = fail "multi-select" .noFirstEntry (src.trim s).inner.start := by
  obtain ⟨hlen, hsome⟩ := exists_comma hclose hcomma
  have hlist : firstEntries entry (src.trim s).inner.start (src.findAll (src.trim s).inner [',']) = [] := by
    refine List.eq_nil_iff_forall_not_mem.mpr fun ⟨p, a⟩ hx => ?_
    obtain ⟨hp, ha⟩ := mem_firstEntries.mp hx
    exact hnone p ⟨hp, a, ha⟩
  rw [entries_between hopen hclose hlen, hsome, if_neg Bool.false_ne_true, hlist]

/-- With several first entries. -/
theorem entries_of_several (hopen : src.first (src.trim s) = some opening)
    (hclose : src.last (src.trim s) = some closing) {p q : Nat} (hne : p ≠ q)
    (hp : Ends src entry (src.trim s).inner p) (hq : Ends src entry (src.trim s).inner q) :
    entries src opening closing entry s = fail "multi-select" .ambiguousSeparation (src.trim s).start := by
  obtain ⟨hlen, hsome⟩ := exists_comma hclose (mem_slice_of_mem_findAll hp.1)
  rw [entries_between hopen hclose hlen, hsome, if_neg Bool.false_ne_true]
  generalize (src.trim s).inner = inner at hp hq
  obtain ⟨hp, a, ha⟩ := hp
  obtain ⟨hq, b, hb⟩ := hq
  have hx := mem_firstEntries.mpr ⟨hp, ha⟩
  have hy := mem_firstEntries.mpr ⟨hq, hb⟩
  generalize firstEntries entry inner.start (src.findAll inner [',']) = xs at hx hy
  match xs with
  | [] => exact nomatch hx
  | [x] =>
    rw [List.mem_singleton] at hx hy
    exact absurd (congrArg Prod.fst (hx.trans hy.symm)) hne
  | _ :: _ :: _ => rfl

/-- With one first entry. -/
theorem entries_of_one (hopen : src.first (src.trim s) = some opening)
    (hclose : src.last (src.trim s) = some closing) {first : Nat} {rest : List Nat}
    (honly : ∀ p, Ends src entry (src.trim s).inner p ↔ p = first)
    (hrest : Cuts src entry ⟨first + 1, (src.trim s).inner.stop⟩ rest) :
    (∀ as, entries src opening closing entry s = .ok as ↔
      List.Forall₂ (fun q a => entry q = .ok a) ((src.trim s).inner.cut (first :: rest)) as) ∧
    ∀ f, entries src opening closing entry s = .error f → f.reason = .ambiguousSeparation := by
  obtain ⟨hfirst, a, ha⟩ := (honly first).mpr rfl
  obtain ⟨hlen, hsome⟩ := exists_comma hclose (mem_slice_of_mem_findAll hfirst)
  rw [entries_between hopen hclose hlen, hsome, if_neg Bool.false_ne_true]
  generalize (src.trim s).inner = inner at *
  have hlist : firstEntries entry inner.start (src.findAll inner [',']) = [(first, a)] := by
    refine eq_singleton_of_sorted (firstEntries_sorted (src.findAll_sorted _ _)) (mem_firstEntries.mpr ⟨hfirst, ha⟩) ?_
    rintro ⟨q, b⟩ hq
    obtain ⟨hq, hb⟩ := mem_firstEntries.mp hq
    obtain rfl := (honly q).mp ⟨hq, b, hb⟩
    cases hb.symm.trans ha
    rfl
  obtain ⟨cuts, hcuts, hresult⟩ := exists_cuts src entry ⟨first + 1, inner.stop⟩
  rw [← Source.findAll_filter (src.findAll_bounds hfirst).1] at hresult
  obtain rfl := hcuts.unique hrest
  have hforall : ∀ as, List.Forall₂ (fun q a => entry q = .ok a) (inner.cut (first :: cuts)) as ↔
      ∃ bs, entriesFrom entry inner.stop ((src.findAll inner [',']).filter (first < ·)) (first + 1) = .ok bs ∧
        a :: bs = as := by
    intro as
    simp only [Span.cut, List.forall₂_cons_left_iff, ha, hresult, Except.ok.injEq]
    constructor
    · rintro ⟨_, bs, rfl, hbs, rfl⟩
      exact ⟨bs, hbs, rfl⟩
    · rintro ⟨bs, hbs, rfl⟩
      exact ⟨a, bs, rfl, hbs, rfl⟩
  simp only [hlist, hforall]
  cases entriesFrom entry inner.stop ((src.findAll inner [',']).filter (first < ·)) (first + 1) with
  | ok bs => simp
  | error f => simp [fail, Failure.leaf]

end

/-- There is no first entry, or one, with one way to cut the rest, or there are several. -/
theorem ends_cases (src : Source) (entry : Rule α) (r : Span) : (∀ p, ¬ Ends src entry r p) ∨
    (∃ first rest, (∀ p, Ends src entry r p ↔ p = first) ∧ Cuts src entry ⟨first + 1, r.stop⟩ rest) ∨
      ∃ p q, p ≠ q ∧ Ends src entry r p ∧ Ends src entry r q := by
  by_cases hnone : ∀ p, ¬ Ends src entry r p
  · exact .inl hnone
  · obtain ⟨first, hfirst⟩ := not_forall_not.mp hnone
    refine .inr ?_
    by_cases hother : ∃ p, p ≠ first ∧ Ends src entry r p
    · obtain ⟨p, hne, hp⟩ := hother
      exact .inr ⟨p, first, hne, hp, hfirst⟩
    · obtain ⟨rest, hrest, -⟩ := exists_cuts src entry ⟨first + 1, r.stop⟩
      refine .inl ⟨first, rest, fun p => ⟨fun hp => ?_, ?_⟩, hrest⟩
      · by_contra hne
        exact hother ⟨p, hne, hp⟩
      · rintro rfl
        exact hfirst

section

variable {opening closing : Char} {s : Span}

/-- **What is read between two brackets, whatever an entry is.** Entries are read if the text can be
cut at commas into pieces that are all entries, where the first comma alone may end a first entry and
each later one is the first that ends an entry behind the one before; with commas between them the
pieces are all of the text. A text with a comma fails for two reasons only: no comma may end a first
entry, or several may or what is left behind the last cut is no entry. -/
theorem entries_separation (hopen : src.first (src.trim s) = some opening)
    (hclose : src.last (src.trim s) = some closing) :
    (∀ as, entries src opening closing entry s = .ok as ↔ 2 ≤ (src.trim s).length ∧
      ∃ cuts, Separators src entry (src.trim s).inner cuts ∧
        src.slice (src.trim s).inner = [','].intercalate (((src.trim s).inner.cut cuts).map src.slice) ∧
        List.Forall₂ (fun q a => entry q = .ok a) ((src.trim s).inner.cut cuts) as) ∧
    (',' ∈ src.slice (src.trim s).inner →
      (FailsWith (entries src opening closing entry s) "Invalid value" ↔
        ∀ p, ¬ Ends src entry (src.trim s).inner p) ∧
      (FailsWith (entries src opening closing entry s) "Ambiguous separation" ↔
        (∃ p q, p ≠ q ∧ Ends src entry (src.trim s).inner p ∧ Ends src entry (src.trim s).inner q) ∨
          ∃ first rest, (∀ p, Ends src entry (src.trim s).inner p ↔ p = first) ∧
            Cuts src entry ⟨first + 1, (src.trim s).inner.stop⟩ rest ∧
              ∀ a, entry ((src.trim s).inner.afterCuts (first :: rest)) ≠ .ok a)) := by
  have hcases := ends_cases src entry (src.trim s).inner
  refine ⟨fun as => ⟨fun h => ?_, ?_⟩, fun hcomma => ⟨⟨fun h => ?_, fun hnone => ?_⟩, fun h => ?_, ?_⟩⟩
  · have hlen := (entries_eq_ok.mp h).2.1
    refine ⟨hlen, ?_⟩
    by_cases hcomma : ',' ∈ src.slice (src.trim s).inner
    · rcases hcases with hnone | ⟨first, rest, honly, hrest⟩ | ⟨p, q, hne, hp, hq⟩
      · exact nomatch h.symm.trans (entries_of_none hopen hclose hcomma hnone)
      · have hsep := Separators.some honly hrest
        exact ⟨_, hsep, hsep.slice, ((entries_of_one hopen hclose honly hrest).1 as).mp h⟩
      · exact nomatch h.symm.trans (entries_of_several hopen hclose hne hp hq)
    · rw [entries_single hopen hclose hlen hcomma] at h
      obtain ⟨a, ha, rfl⟩ := map_eq_ok.mp h
      have hsep : Separators src entry (src.trim s).inner [] := .none hcomma
      exact ⟨[], hsep, hsep.slice, .cons ha .nil⟩
  · rintro ⟨hlen, cuts, hsep, -, hall⟩
    cases hsep with
    | none hcomma =>
      obtain ⟨a, _, ha, hnil, rfl⟩ := List.forall₂_cons_left_iff.mp hall
      cases hnil
      rw [entries_single hopen hclose hlen hcomma, ha]
      rfl
    | some honly hrest => exact ((entries_of_one hopen hclose honly hrest).1 as).mpr hall
  · obtain ⟨f, hf, hmessage⟩ := h
    rcases hcases with hnone | ⟨first, rest, honly, hrest⟩ | ⟨p, q, hne, hp, hq⟩
    · exact hnone
    · rw [(entries_of_one hopen hclose honly hrest).2 f hf] at hmessage
      exact absurd hmessage (by decide)
    · cases hf.symm.trans (entries_of_several hopen hclose hne hp hq)
      exact absurd hmessage (show Reason.ambiguousSeparation.message ≠ _ by decide)
  · exact ⟨_, entries_of_none hopen hclose hcomma hnone, rfl⟩
  · obtain ⟨f, hf, hmessage⟩ := h
    rcases hcases with hnone | ⟨first, rest, honly, hrest⟩ | hseveral
    · cases hf.symm.trans (entries_of_none hopen hclose hcomma hnone)
      exact absurd hmessage (show Reason.noFirstEntry.message ≠ _ by decide)
    · refine .inr ⟨first, rest, honly, hrest, fun a ha => ?_⟩
      obtain ⟨as, has⟩ := (Separators.some honly hrest).forall₂_iff.mpr ⟨a, ha⟩
      exact nomatch hf.symm.trans (((entries_of_one hopen hclose honly hrest).1 as).mpr has)
    · exact .inl hseveral
  · rintro (⟨p, q, hne, hp, hq⟩ | ⟨first, rest, honly, hrest, hrefused⟩)
    · exact ⟨_, entries_of_several hopen hclose hne hp hq, rfl⟩
    · obtain ⟨hok, herror⟩ := entries_of_one hopen hclose honly hrest
      cases hresult : entries src opening closing entry s with
      | ok as =>
        obtain ⟨a, ha⟩ := (Separators.some honly hrest).forall₂_iff.mp ⟨as, (hok as).mp hresult⟩
        exact absurd ha (hrefused a)
      | error f => exact ⟨f, rfl, congrArg Reason.message (herror f hresult)⟩

/-- The second comma of the first text stands in a quoted name and is passed over; in the second text
either comma may end a first entry, if an entry is any text. -/
theorem entries_separation_quoted :
    let src := Source.ofString "[a,\"b,c\"]"
    let src' := Source.ofString "[a,b,c]"
    src.first (src.trim ⟨0, 9⟩) = some '[' ∧ src.last (src.trim ⟨0, 9⟩) = some ']' ∧
      (∃ cuts, Separators src (Token.identifier src) ⟨1, 8⟩ cuts ∧
        List.Forall₂ (fun q a => Token.identifier src q = .ok a) (Span.cut ⟨1, 8⟩ cuts) ["a", "b,c"]) ∧
      src'.first (src'.trim ⟨0, 7⟩) = some '[' ∧ src'.last (src'.trim ⟨0, 7⟩) = some ']' ∧
      FailsWith (entries src' '[' ']' (plain src' "any") ⟨0, 7⟩) "Ambiguous separation" := by
  intro src src'
  have hopen : src.first (src.trim ⟨0, 9⟩) = some '[' := by decide
  have hclose : src.last (src.trim ⟨0, 9⟩) = some ']' := by decide
  have hopen' : src'.first (src'.trim ⟨0, 7⟩) = some '[' := by decide
  have hclose' : src'.last (src'.trim ⟨0, 7⟩) = some ']' := by decide
  obtain ⟨-, cuts, hsep, -, hall⟩ :=
    ((@entries_separation _ src (Token.identifier src) _ _ _ hopen hclose).1 ["a", "b,c"]).mp (toOption_eq_some.mp (by decide +kernel))
  have hfails := (@entries_separation _ src' (plain src' "any") _ _ _ hopen' hclose').2 (by decide)
  exact ⟨hopen, hclose, ⟨cuts, hsep, hall⟩, hopen', hclose',
    hfails.2.mpr (.inl ⟨2, 4, by decide, ⟨by decide, _, rfl⟩, ⟨by decide, _, rfl⟩⟩)⟩

end

end Rule

end PathQuery
