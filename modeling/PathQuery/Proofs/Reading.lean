/-
# What a text gives as a whole

A rule that looks at the characters of its range only (`Reader.Local`) gives on a
range what it gives on the text of the range alone, so it may be thought of as a
relation between texts and what is made of them (`Reader.Accepts`). If it takes the
spaces off its range, they make no difference at the ends of a text either. A rule
that joins two sides accepts a text if there is a cut of it that suits both, and
takes the first one (`FirstCut`).

Key definitions: `Tight`, `Reader.Accepts`, `Reader.Local`, `Reader.Trims`,
`FirstCut`.
Key theorems: `Reader.Local.eq_ok`, `Reader.Trims.accepts_pad`, `Rule.firstSplit_iff`.
-/
import PathQuery.Proofs.Soundness

namespace PathQuery

open Grammar

variable {α β : Type}

/-! ### Texts without spaces at their ends -/

/-- A text that begins and ends with something else than a space. -/
structure Tight (t : List Char) : Prop where
  ne_nil : t ≠ []
  head : t.head? ≠ some ' '
  last : t.getLast? ≠ some ' '

namespace Tight

theorem of_enclosed {a b : Char} (t : List Char) (ha : a ≠ ' ') (hb : b ≠ ' ') : Tight (a :: t ++ [b]) where
  ne_nil := nofun
  head h := ha (Option.some.inj h)
  last h := hb (Option.some.inj (List.getLast?_concat.symm.trans h))

/-- What begins and ends with tight texts is tight. -/
theorem join {t u : List Char} (ht : Tight t) (m : List Char) (hu : Tight u) : Tight (t ++ m ++ u) where
  ne_nil h := hu.ne_nil (List.append_eq_nil_iff.mp h).2
  head := by
    rw [List.append_assoc, List.head?_append_of_ne_nil _ ht.ne_nil]
    exact ht.head
  last := by
    rw [List.getLast?_append_of_ne_nil _ hu.ne_nil]
    exact hu.last

/-- There are no spaces to leave out at the end. -/
theorem blank_right {t b : List Char} (ht : Tight (t ++ b)) (hb : Blank b) : b = [] := by
  rcases List.eq_nil_or_concat b with rfl | ⟨b', c, rfl⟩
  · rfl
  · refine absurd ?_ ht.last
    rw [List.concat_eq_append, ← List.append_assoc, List.getLast?_concat]
    exact congrArg some (hb c (by simp))

/-- Spaces at the start are left out. -/
theorem exists_head : ∀ {t : List Char}, (∃ c ∈ t, c ≠ ' ') →
    ∃ a u, t = a ++ u ∧ Blank a ∧ u ≠ [] ∧ u.head? ≠ some ' '
  | [], h => absurd h (by simp)
  | c :: t, h => by
    by_cases hc : c = ' '
    · have hrest : ∃ c ∈ t, c ≠ ' ' := by
        obtain ⟨d, hd, hne⟩ := h
        rcases List.mem_cons.mp hd with rfl | hd
        · exact absurd hc hne
        · exact ⟨d, hd, hne⟩
      obtain ⟨a, u, rfl, ha, hu, hhead⟩ := exists_head hrest
      exact ⟨c :: a, u, rfl, List.forall_mem_cons.mpr ⟨hc, ha⟩, hu, hhead⟩
    · exact ⟨[], c :: t, rfl, nofun, nofun, fun h => hc (Option.some.inj h)⟩

/-- A text that holds something is a tight text between spaces. -/
theorem exists_core {t : List Char} (h : ∃ c ∈ t, c ≠ ' ') :
    ∃ a u b, t = a ++ u ++ b ∧ Blank a ∧ Blank b ∧ Tight u := by
  obtain ⟨a, v, rfl, ha, hv, hhead⟩ := exists_head h
  have hsome : ∃ c ∈ v.reverse, c ≠ ' ' := by
    cases v with
    | nil => exact absurd rfl hv
    | cons c v => exact ⟨c, by simp, fun hc => hhead (by rw [hc]; rfl)⟩
  obtain ⟨b, u, hu, hb, hne, hlast⟩ := exists_head hsome
  have hv' : v = u.reverse ++ b.reverse := by
    rw [← List.reverse_append, ← hu, List.reverse_reverse]
  refine ⟨a, u.reverse, b.reverse, by rw [hv', List.append_assoc], ha, fun c hc => hb c (List.mem_reverse.mp hc), ?_⟩
  refine ⟨fun h => hne (List.reverse_eq_nil_iff.mp h), fun h => hhead ?_, fun h => hlast ?_⟩
  · rw [hv', List.head?_append, h]
    rfl
  · rwa [List.getLast?_reverse] at h

end Tight

namespace Source

/-- The source of a list of characters. -/
def ofChars (t : List Char) : Source := ⟨t.toArray⟩

theorem slice_ofChars (t : List Char) (s : Span) : (ofChars t).slice s = (t.drop s.start).take (s.stop - s.start) := by
  rw [slice_eq]
  rfl

theorem slice_whole_ofChars (t : List Char) : (ofChars t).slice ⟨0, t.length⟩ = t := by
  rw [slice_ofChars, List.drop_zero, Nat.sub_zero, List.take_length]

theorem charAt_ofChars (t : List Char) (p : Nat) : (ofChars t).charAt p = t[p]? := by
  rw [charAt_eq]
  rfl

/-- What stands between two brackets. -/
theorem slice_inner {a b : Char} (t : List Char) :
    (ofChars (a :: t ++ [b])).slice (Span.inner ⟨0, (a :: t ++ [b]).length⟩) = t := by
  rw [slice_ofChars]
  simp [Span.inner]

theorem charAt_closing {a b : Char} (t : List Char) :
    (ofChars (a :: t ++ [b])).charAt ((a :: t ++ [b]).length - 1) = some b := by
  rw [charAt_ofChars, ← List.getLast?_eq_getElem?, List.getLast?_concat]

/-- What is left of a range without its spaces is known by its ends. -/
theorem trim_eq {src : Source} {s : Span} {i j : Nat} (hi : s.start ≤ i) (hij : i < j) (hj : j ≤ s.stop)
    (hbefore : ∀ p, s.start ≤ p → p < i → src.charAt p = some ' ')
    (hafter : ∀ p, j ≤ p → p < s.stop → src.charAt p = some ' ')
    (hfirst : src.charAt i ≠ some ' ') (hlast : src.charAt (j - 1) ≠ some ' ') : src.trim s = ⟨i, j⟩ := by
  have hlt : s.start < s.stop := by omega
  obtain ⟨h1, h2, h3⟩ := src.trim_bounds hlt
  have hstart : (src.trim s).start ≤ i := Nat.le_of_not_lt fun h => hfirst (src.charAt_before_trim hi h)
  have hstop : j ≤ (src.trim s).stop :=
    Nat.le_of_not_lt fun h => hlast (src.charAt_after_trim (s := s) (by omega) (by omega))
  have hlong : (src.trim s).start < i ∨ j < (src.trim s).stop → 1 < (src.trim s).length := by
    intro h
    simp only [Span.length]
    omega
  have hi' : (src.trim s).start = i := by
    refine Nat.le_antisymm hstart (Nat.le_of_not_lt fun h => ?_)
    exact src.charAt_trim_start (hlong (.inl h)) (hbefore _ h1 h)
  have hj' : (src.trim s).stop = j := by
    refine Nat.le_antisymm (Nat.le_of_not_lt fun h => ?_) hstop
    exact src.charAt_trim_stop (hlong (.inr h)) (hafter _ (by omega) (by omega))
  exact congrArg₂ Span.mk hi' hj'

theorem trim_trim (src : Source) {s : Span} (h : s.start < s.stop) : src.trim (src.trim s) = src.trim s := by
  obtain ⟨h1, h2, h3⟩ := src.trim_bounds h
  by_cases hlen : 1 < (src.trim s).length
  · exact trim_eq (Nat.le_refl _) h2 (Nat.le_refl _) (fun p hp hlt => absurd hlt (Nat.not_lt.mpr hp))
      (fun p hp hlt => absurd hlt (Nat.not_lt.mpr hp)) (src.charAt_trim_start hlen) (src.charAt_trim_stop hlen)
  · obtain ⟨h1', h2', h3'⟩ := src.trim_bounds h2
    simp only [Span.length] at hlen
    have hstart : (src.trim (src.trim s)).start = (src.trim s).start := by omega
    have hstop : (src.trim (src.trim s)).stop = (src.trim s).stop := by omega
    exact congrArg₂ Span.mk hstart hstop

theorem trim_pad {a t b : List Char} (ha : Blank a) (hb : Blank b) (ht : Tight t) :
    (ofChars (a ++ t ++ b)).trim ⟨0, (a ++ t ++ b).length⟩ = ⟨a.length, a.length + t.length⟩ := by
  have hpos : 0 < t.length := List.length_pos_iff.mpr ht.ne_nil
  have hbefore : ∀ p, p < a.length → (ofChars (a ++ t ++ b)).charAt p = some ' ' := by
    intro p hp
    rw [charAt_ofChars, List.append_assoc, List.getElem?_append_left hp, List.getElem?_eq_getElem hp]
    exact congrArg some (ha _ (List.getElem_mem hp))
  have hafter : ∀ p, a.length + t.length ≤ p → p < (a ++ t ++ b).length →
      (ofChars (a ++ t ++ b)).charAt p = some ' ' := by
    intro p hp hlt
    have hle : (a ++ t).length ≤ p := by rwa [List.length_append]
    rw [List.length_append] at hlt
    have hlt' : p - (a ++ t).length < b.length := by omega
    rw [charAt_ofChars, List.getElem?_append_right hle, List.getElem?_eq_getElem hlt']
    exact congrArg some (hb _ (List.getElem_mem hlt'))
  have hinside : ∀ i, i < t.length → (ofChars (a ++ t ++ b)).charAt (a.length + i) = t[i]? := by
    intro i hi
    rw [charAt_ofChars, List.append_assoc, List.getElem?_append_right (Nat.le_add_right _ _),
      Nat.add_sub_cancel_left, List.getElem?_append_left hi]
  refine trim_eq (Nat.zero_le _) (by omega) (by simp only [List.length_append]; omega)
    (fun p _ hp => hbefore p hp) hafter ?_ ?_
  · have := hinside 0 hpos
    rw [Nat.add_zero] at this
    rw [this, ← List.head?_eq_getElem?]
    exact ht.head
  · have := hinside (t.length - 1) (by omega)
    rw [Nat.add_sub_assoc hpos, this, ← List.getLast?_eq_getElem?]
    exact ht.last

/-- A text without spaces at its ends is left as it is. -/
theorem trim_tight {t : List Char} (ht : Tight t) : (ofChars t).trim ⟨0, t.length⟩ = ⟨0, t.length⟩ := by
  have h := trim_pad (a := []) (b := []) nofun nofun ht
  simpa using h

end Source

/-! ### Rules and texts -/

/-- A rule for each source. -/
abbrev Reader (α : Type) := Source → Rule α

namespace Reader

/-- What a rule makes of a whole text. -/
def Accepts (R : Reader α) (t : List Char) (a : α) : Prop := R (.ofChars t) ⟨0, t.length⟩ = .ok a

/-- Whether a rule reads the characters of its range and nothing else. -/
def Local (R : Reader α) : Prop :=
  ∀ {src src' : Source} {k : Nat} {s : Span}, src.Window src' k s → R src' (s.shift k) = Rule.shifted k (R src s)

/-- **A range gives what its text gives.** -/
theorem Local.eq_ok {R : Reader α} (hR : R.Local) {src : Source} {s : Span} {a : α} (hs : s.start ≤ s.stop)
    (hstop : s.stop ≤ src.size) : R src s = .ok a ↔ R.Accepts (src.slice s) a := by
  have hlen := src.length_slice hstop
  have hsize : (Source.ofChars (src.slice s)).size = (src.slice s).length := rfl
  have hshift : Span.shift s.start ⟨0, (src.slice s).length⟩ = s := by
    rw [hlen, Span.shift, Span.length, Nat.zero_add, Nat.sub_add_cancel hs]
  have w : (Source.ofChars (src.slice s)).Window src s.start ⟨0, (src.slice s).length⟩ := by
    refine ⟨Nat.le_of_eq hsize.symm, ?_, fun p _ hp => ?_⟩
    · rw [hlen, Span.length, Nat.sub_add_cancel hs]
      exact hstop
    · simp only [hlen, Span.length] at hp
      rw [Source.charAt_ofChars, Source.getElem?_slice, if_pos hp, Nat.add_comm]
  have h := hR w
  rw [hshift] at h
  rw [h, Rule.shifted_eq_ok]
  rfl

/-- Whether the spaces at the ends of a range make no difference. -/
def Trims (R : Reader α) : Prop :=
  ∀ (src : Source) (s : Span), s.start < s.stop → s.stop ≤ src.size → R src s = R src (src.trim s)

theorem trims_bounded {rule : String} {f : Source → Span → Except Failure α} :
    Trims fun src s => Token.bounded src rule s >>= f src := by
  intro src s hs _
  have ht := (src.trim_bounds hs).2.1
  simp only [Token.bounded, if_pos hs, if_pos ht, src.trim_trim hs]

theorem Trims.accepts_pad {R : Reader α} (hT : R.Trims) (hR : R.Local) {a t b : List Char} {x : α}
    (ha : Blank a) (hb : Blank b) (ht : Tight t) : R.Accepts (a ++ t ++ b) x ↔ R.Accepts t x := by
  have hpos : 0 < t.length := List.length_pos_iff.mpr ht.ne_nil
  have hsize : (Source.ofChars (a ++ t ++ b)).size = (a ++ t ++ b).length := rfl
  have hne : 0 < (a ++ t ++ b).length := by
    simp only [List.length_append]
    omega
  have hstop : a.length + t.length ≤ (Source.ofChars (a ++ t ++ b)).size := by
    rw [hsize]
    simp only [List.length_append]
    omega
  have hslice : (Source.ofChars (a ++ t ++ b)).slice ⟨a.length, a.length + t.length⟩ = t := by
    rw [Source.slice_ofChars]
    simp [List.append_assoc]
  unfold Accepts
  rw [hT _ _ hne (Nat.le_of_eq hsize.symm), Source.trim_pad ha hb ht, hR.eq_ok (Nat.le_add_right _ _) hstop, hslice]
  rfl

end Reader

/-! ### Cuts -/

/-- The first place of a symbol in a text at which both sides are as they should be. -/
def FirstCut (symbol : List Char) (L : List Char → α → Prop) (R : List Char → β → Prop) (t : List Char)
    (a : α) (b : β) : Prop :=
  ∃ x y, t = x ++ (symbol ++ y) ∧ L x a ∧ R y b ∧
    ∀ x' y', t = x' ++ (symbol ++ y') → x'.length < x.length → ∀ a' b', L x' a' → ¬ R y' b'

/-- If there is a place at all there is a first one. -/
theorem FirstCut.exists {s : List Char} {L : List Char → α → Prop} {R : List Char → β → Prop}
    {t x y : List Char} {a : α} {b : β} (ht : t = x ++ (s ++ y)) (ha : L x a) (hb : R y b) :
    ∃ a b, FirstCut s L R t a b := by
  induction hn : x.length using Nat.strongRecOn generalizing x y a b with
  | ind n ih =>
    by_cases h : ∃ x' y', t = x' ++ (s ++ y') ∧ x'.length < x.length ∧ ∃ a' b', L x' a' ∧ R y' b'
    · obtain ⟨x', y', ht', hlt, a', b', ha', hb'⟩ := h
      exact ih x'.length (by omega) ht' ha' hb' rfl
    · refine ⟨a, b, x, y, ht, ha, hb, fun x' y' ht' hlt a' b' ha' hb' => h ?_⟩
      exact ⟨x', y', ht', hlt, a', b', ha', hb'⟩

namespace Rule

/-- The first of several in order that gives something. -/
theorem findSome?_sorted {γ : Type} {r : γ → Nat} {f : γ → Option β} {b : β} : ∀ {xs : List γ},
    xs.Pairwise (r · < r ·) →
      (xs.findSome? f = some b ↔ ∃ x ∈ xs, f x = some b ∧ ∀ y ∈ xs, r y < r x → f y = none)
  | [], _ => by simp
  | x :: xs, hs => by
    obtain ⟨hlt, hs⟩ := List.pairwise_cons.mp hs
    rw [List.findSome?_cons]
    cases hx : f x with
    | some c =>
      constructor
      · rintro ⟨⟩
        refine ⟨x, List.mem_cons_self, hx, fun y hy hyx => ?_⟩
        rcases List.mem_cons.mp hy with rfl | hy
        · exact absurd hyx (Nat.lt_irrefl _)
        · exact absurd hyx (Nat.lt_asymm (hlt y hy))
      · rintro ⟨y, hy, he, hbefore⟩
        rcases List.mem_cons.mp hy with rfl | hy
        · rw [← hx, he]
        · rw [hbefore x List.mem_cons_self (hlt y hy)] at hx
          cases hx
    | none =>
      rw [findSome?_sorted hs]
      constructor
      · rintro ⟨y, hy, he, hbefore⟩
        refine ⟨y, List.mem_cons_of_mem _ hy, he, fun z hz hzy => ?_⟩
        rcases List.mem_cons.mp hz with rfl | hz
        · exact hx
        · exact hbefore z hz hzy
      · rintro ⟨y, hy, he, hbefore⟩
        rcases List.mem_cons.mp hy with rfl | hy
        · rw [hx] at he
          cases he
        · exact ⟨y, hy, he, fun z hz => hbefore z (List.mem_cons_of_mem _ hz)⟩

theorem pair_eq_some {left : Rule α} {right : Rule β} {l r : Span} {a : α} {b : β} :
    (pair left l right r).toOption = some (a, b) ↔ left l = .ok a ∧ right r = .ok b := by
  unfold pair
  cases left l with
  | error f => exact ⟨nofun, nofun⟩
  | ok a' =>
    cases right r with
    | error f => exact ⟨nofun, nofun⟩
    | ok b' =>
      simp only [Except.toOption, Option.some.injEq, Prod.mk.injEq, Except.ok.injEq]

/-- Where a search in a text finds a needle. -/
theorem mem_findAll_ofChars {t needle : List Char} {r : Span} {p : Nat} (hneedle : needle ≠ []) :
    p ∈ (Source.ofChars t).findAll r needle ↔ r.start ≤ p ∧ p + needle.length ≤ r.stop ∧
      ∃ x y, t = x ++ (needle ++ y) ∧ x.length = p := by
  have hsize : (Source.ofChars t).size = t.length := rfl
  rw [Source.mem_findAll hneedle, Source.matchesAt_iff]
  change _ ∧ _ ∧ needle <+: t.drop p ↔ _
  constructor
  · rintro ⟨hp, hstop, y, hy⟩
    refine ⟨hp, by omega, t.take p, y, by rw [hy, List.take_append_drop], ?_⟩
    rw [List.length_take]
    omega
  · rintro ⟨hp, hstop, x, y, rfl, rfl⟩
    refine ⟨hp, ?_, y, by rw [List.drop_left]⟩
    rw [hsize]
    simp only [List.length_append]
    omega

variable {L : Reader α} {R : Reader β}

/-- **A split of a text takes the first cut.** A cut at an end of the text, which
the search may leave out, suits no rule. -/
theorem firstSplit_iff (hL : L.Local) (hR : R.Local) {needle t : List Char} {width : Nat} {r : Span}
    (hneedle : needle ≠ []) (hwidth : width ≤ needle.length) (hstart : r.start ≤ 1)
    (hstop : t.length ≤ r.stop + 1) (hleft : ∀ a, ¬ L.Accepts [] a)
    (hright : ∀ b, ¬ R.Accepts (needle.drop width) b) {a : α} {b : β} (hin : r.stop ≤ t.length) :
    firstSplit ⟨0, t.length⟩ ((Source.ofChars t).findAll r needle) width (L (.ofChars t)) (R (.ofChars t)) =
        some (a, b) ↔
      FirstCut needle L.Accepts (fun y => R.Accepts (needle.drop width ++ y)) t a b := by
  have hsize : (Source.ofChars t).size = t.length := rfl
  have hsides : ∀ x y, t = x ++ (needle ++ y) → ∀ a b,
      (pair (L (.ofChars t)) ⟨0, x.length⟩ (R (.ofChars t)) ⟨x.length + width, t.length⟩).toOption = some (a, b) ↔
        L.Accepts x a ∧ R.Accepts (needle.drop width ++ y) b := by
    intro x y ht a b
    have hlen : t.length = x.length + (needle.length + y.length) := by rw [ht]; simp only [List.length_append]
    have hx : (Source.ofChars t).slice ⟨0, x.length⟩ = x := by
      rw [Source.slice_ofChars, List.drop_zero, Nat.sub_zero, ht, List.take_left]
    have hy : (Source.ofChars t).slice ⟨x.length + width, t.length⟩ = needle.drop width ++ y := by
      rw [Source.slice_ofChars, ← List.drop_drop, ht, List.drop_left, List.drop_append_of_le_length hwidth]
      refine List.take_of_length_le ?_
      simp only [List.length_append, List.length_drop]
      omega
    rw [pair_eq_some, hL.eq_ok (Nat.zero_le _) (by rw [hsize]; simp only; omega),
      hR.eq_ok (by simp only; omega) (Nat.le_refl _), hx, hy]
  -- a position that the search leaves out has nothing on one side
  have hfound : ∀ x y, t = x ++ (needle ++ y) → ∀ a b, L.Accepts x a → R.Accepts (needle.drop width ++ y) b →
      x.length ∈ (Source.ofChars t).findAll r needle := by
    intro x y ht a b ha hb
    have hlen : t.length = x.length + (needle.length + y.length) := by rw [ht]; simp only [List.length_append]
    have hx : 0 < x.length := List.length_pos_iff.mpr (by rintro rfl; exact hleft a ha)
    have hy : 0 < y.length := List.length_pos_iff.mpr (by rintro rfl; exact hright b (by simpa using hb))
    exact (mem_findAll_ofChars hneedle).mpr ⟨by omega, by omega, x, y, ht, rfl⟩
  unfold firstSplit
  rw [findSome?_sorted (r := id) (Source.findAll_sorted _ _ _)]
  constructor
  · rintro ⟨p, hp, he, hbefore⟩
    obtain ⟨-, -, x, y, ht, rfl⟩ := (mem_findAll_ofChars hneedle).mp hp
    obtain ⟨ha, hb⟩ := (hsides x y ht a b).mp he
    refine ⟨x, y, ht, ha, hb, fun x' y' ht' hlt a' b' ha' hb' => ?_⟩
    have hnone := hbefore _ (hfound x' y' ht' a' b' ha' hb') hlt
    rw [(hsides x' y' ht' a' b').mpr ⟨ha', hb'⟩] at hnone
    cases hnone
  · rintro ⟨x, y, ht, ha, hb, hbefore⟩
    refine ⟨x.length, hfound x y ht a b ha hb, (hsides x y ht a b).mpr ⟨ha, hb⟩, fun q hq hlt => ?_⟩
    obtain ⟨-, -, x', y', ht', rfl⟩ := (mem_findAll_ofChars hneedle).mp hq
    rw [Option.eq_none_iff_forall_ne_some]
    rintro ⟨a', b'⟩ hsome
    obtain ⟨ha', hb'⟩ := (hsides x' y' ht' a' b').mp hsome
    exact hbefore x' y' ht' hlt a' b' ha' hb'

/-- A split that leaves out the whole symbol. -/
theorem firstSplit_after (hL : L.Local) (hR : R.Local) {needle t : List Char} {width : Nat} {r : Span}
    (hneedle : needle ≠ []) (hwidth : width = needle.length) (hstart : r.start ≤ 1)
    (hstop : t.length ≤ r.stop + 1) (hin : r.stop ≤ t.length) (hleft : ∀ a, ¬ L.Accepts [] a)
    (hright : ∀ b, ¬ R.Accepts [] b) {a : α} {b : β} :
    firstSplit ⟨0, t.length⟩ ((Source.ofChars t).findAll r needle) width (L (.ofChars t)) (R (.ofChars t)) =
        some (a, b) ↔ FirstCut needle L.Accepts R.Accepts t a b := by
  have hdrop : needle.drop width = [] := by rw [hwidth, List.drop_length]
  have h := firstSplit_iff hL hR hneedle (Nat.le_of_eq hwidth) hstart hstop hleft (by rwa [hdrop]) hin
    (a := a) (b := b)
  simpa only [hdrop, List.nil_append] using h

end Rule

end PathQuery
