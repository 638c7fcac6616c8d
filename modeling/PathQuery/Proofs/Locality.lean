/-
# A rule reads its range and nothing else

If another text holds the characters of a range `k` places further on, every rule
gives there what it gives here: the same result, or the same failure with every
position `k` larger (`Rule.shifted`). A form is given the rule for the
expressions inside it, and asks it only about ranges that are shorter than its
own. So the levels of a budget beyond the length of a range change nothing, and
what an expression reads depends on its characters alone (`Expr.rule_shift`).

Key definitions: `Failure.shift`, `Rule.shifted`, `Form.Agree`.
Key theorems: `Rule.firstSplit_shift`, `Rule.entries_shift`, `Form.all_shift`,
`Expr.rule_shift`.
-/
import Mathlib.Data.List.Forall2
import PathQuery.Proofs.Entries
import PathQuery.Expr.Parse

namespace PathQuery

namespace Failure

mutual

/-- The failure with every position `k` larger. -/
def shift (k : Nat) : Failure → Failure
  | ⟨rule, reason, position, alternatives⟩ => ⟨rule, reason, position + k, shiftAll k alternatives⟩

/-- Several failures with every position `k` larger. -/
def shiftAll (k : Nat) : List Failure → List Failure
  | [] => []
  | f :: rest => shift k f :: shiftAll k rest

end

mutual

theorem shift_zero : ∀ f : Failure, shift 0 f = f
  | ⟨_, _, _, alternatives⟩ => by rw [shift, shiftAll_zero alternatives, Nat.add_zero]

theorem shiftAll_zero : ∀ fs : List Failure, shiftAll 0 fs = fs
  | [] => rfl
  | f :: rest => by rw [shiftAll, shift_zero f, shiftAll_zero rest]

end

mutual

theorem shift_shift (j k : Nat) : ∀ f : Failure, shift j (shift k f) = shift (k + j) f
  | ⟨_, _, _, alternatives⟩ => by rw [shift, shift, shift, shiftAll_shiftAll j k alternatives, Nat.add_assoc]

theorem shiftAll_shiftAll (j k : Nat) : ∀ fs : List Failure, shiftAll j (shiftAll k fs) = shiftAll (k + j) fs
  | [] => rfl
  | f :: rest => by rw [shiftAll, shiftAll, shiftAll, shift_shift j k f, shiftAll_shiftAll j k rest]

end

end Failure

namespace Rule

variable {α β : Type} {k : Nat}

/-- A result, with the positions of a failure `k` larger. -/
def shifted (k : Nat) : Except Failure α → Except Failure α
  | .ok a => .ok a
  | .error f => .error (f.shift k)

theorem shifted_zero (r : Except Failure α) : shifted 0 r = r := by
  cases r with
  | ok a => rfl
  | error f => rw [shifted, f.shift_zero]

theorem shifted_shifted (j : Nat) (r : Except Failure α) : shifted j (shifted k r) = shifted (k + j) r := by
  cases r with
  | ok a => rfl
  | error f => rw [shifted, shifted, shifted, f.shift_shift]

theorem shifted_map (f : α → β) (r : Except Failure α) : shifted k (r.map f) = (shifted k r).map f := by
  cases r <;> rfl

theorem shifted_bind (r : Except Failure α) (f : α → Except Failure β) :
    shifted k (r >>= f) = shifted k r >>= fun a => shifted k (f a) := by
  cases r <;> rfl

theorem shifted_eq_ok {r : Except Failure α} {a : α} : shifted k r = .ok a ↔ r = .ok a := by
  cases r <;> simp [shifted]

theorem toOption_shifted (r : Except Failure α) : (shifted k r).toOption = r.toOption := by
  cases r <;> rfl

/-- A rule that fails where it would, `k` places further on. -/
theorem fail_shift {rule : String} {reason : Reason} {p q : Nat} (h : q = p + k) :
    (fail rule reason q : Except Failure α) = shifted k (fail rule reason p) := by
  rw [h]
  rfl

theorem ite_shift {c c' : Prop} [Decidable c] [Decidable c'] {a b a' b' : Except Failure α}
    (hc : c' ↔ c) (ha : c → a' = shifted k a) (hb : ¬ c → b' = shifted k b) :
    (if c' then a' else b') = shifted k (if c then a else b) := by
  by_cases h : c
  · rw [if_pos h, if_pos (hc.mpr h), ha h]
  · rw [if_neg h, if_neg (h ∘ hc.mp), hb h]

/-! ### The ways in which rules are put together -/

theorem attempts_shift {s : Span} {rules rules' : List (Rule α)}
    (h : List.Forall₂ (fun rule rule' => rule' (s.shift k) = shifted k (rule s)) rules rules') :
    attempts (s.shift k) rules' = (attempts s rules).mapError (Failure.shiftAll k) := by
  induction h with
  | nil => rfl
  | @cons rule rule' rest rest' h _ ih =>
    unfold attempts
    rw [h, ih]
    cases rule s with
    | ok a => rfl
    | error f => cases attempts s rest <;> rfl

theorem oneOf_shift {s : Span} {name : String} {rules rules' : List (Rule α)}
    (h : List.Forall₂ (fun rule rule' => rule' (s.shift k) = shifted k (rule s)) rules rules') :
    oneOf name rules' (s.shift k) = shifted k (oneOf name rules s) := by
  unfold oneOf
  rw [attempts_shift h]
  cases attempts s rules <;> rfl

theorem pair_shift {left left' : Rule α} {right right' : Rule β} {l r : Span}
    (hl : left' (l.shift k) = shifted k (left l)) (hr : right' (r.shift k) = shifted k (right r)) :
    pair left' (l.shift k) right' (r.shift k) = shifted k (pair left l right r) := by
  unfold pair
  rw [hl, hr]
  cases left l with
  | error f => rfl
  | ok a => cases right r <;> rfl

theorem firstSplit_shift {s : Span} {cuts : List Nat} {width : Nat} {left left' : Rule α}
    {right right' : Rule β}
    (hl : ∀ p ∈ cuts, left' (Span.shift k ⟨s.start, p⟩) = shifted k (left ⟨s.start, p⟩))
    (hr : ∀ p ∈ cuts, right' (Span.shift k ⟨p + width, s.stop⟩) = shifted k (right ⟨p + width, s.stop⟩)) :
    firstSplit (s.shift k) (cuts.map (· + k)) width left' right' = firstSplit s cuts width left right := by
  unfold firstSplit
  induction cuts with
  | nil => rfl
  | cons p cuts ih =>
    have hp := pair_shift (hl p List.mem_cons_self) (hr p List.mem_cons_self)
    have hpair : pair left' ⟨(s.shift k).start, p + k⟩ right' ⟨p + k + width, (s.shift k).stop⟩ =
        shifted k (pair left ⟨s.start, p⟩ right ⟨p + width, s.stop⟩) := by
      rw [← hp, Nat.add_right_comm]
      rfl
    rw [List.map_cons, List.findSome?_cons, List.findSome?_cons, hpair, toOption_shifted,
      ih (fun q hq => hl q (List.mem_cons_of_mem _ hq)) fun q hq => hr q (List.mem_cons_of_mem _ hq)]

theorem entriesFrom_shift {entry entry' : Rule α} {start stop : Nat} {commas : List Nat}
    (h : ∀ r : Span, start ≤ r.start → r.stop ≤ stop → entry' (r.shift k) = shifted k (entry r))
    (hc : ∀ p ∈ commas, start ≤ p ∧ p ≤ stop) (hs : commas.Pairwise (· < ·)) :
    entriesFrom entry' (stop + k) (commas.map (· + k)) (start + k) =
      shifted k (entriesFrom entry stop commas start) := by
  induction commas generalizing start with
  | nil =>
    have hl := h ⟨start, stop⟩ (Nat.le_refl _) (Nat.le_refl _)
    rw [Span.shift] at hl
    unfold entriesFrom
    simp only [List.map_nil]
    rw [hl]
    cases entry ⟨start, stop⟩ <;> rfl
  | cons comma commas ih =>
    obtain ⟨hlt, hs⟩ := List.pairwise_cons.mp hs
    have hcomma := hc comma List.mem_cons_self
    have hl := h ⟨start, comma⟩ (Nat.le_refl _) hcomma.2
    rw [Span.shift] at hl
    have hafter : ∀ p ∈ commas, comma + 1 ≤ p ∧ p ≤ stop := fun p hp =>
      ⟨hlt p hp, (hc p (List.mem_cons_of_mem _ hp)).2⟩
    have hnext := ih (fun r hr => h r (by omega)) hafter hs
    have hskip := ih h (fun p hp => hc p (List.mem_cons_of_mem _ hp)) hs
    rw [Nat.add_right_comm] at hnext
    simp only [List.map_cons]
    unfold entriesFrom
    simp only at hl ⊢
    rw [hl]
    cases entry ⟨start, comma⟩ with
    | error f => exact hskip
    | ok a =>
      simp only [shifted]
      rw [hnext]
      cases entriesFrom entry stop commas (comma + 1) <;> rfl

theorem firstEntries_shift {entry entry' : Rule α} {start : Nat} {commas : List Nat}
    (h : ∀ p ∈ commas, entry' (Span.shift k ⟨start, p⟩) = shifted k (entry ⟨start, p⟩)) :
    firstEntries entry' (start + k) (commas.map (· + k)) =
      (firstEntries entry start commas).map fun e => (e.1 + k, e.2) := by
  unfold firstEntries
  rw [List.filterMap_map, List.map_filterMap]
  refine List.filterMap_congr fun p hp => ?_
  have hentry : entry' ⟨start + k, p + k⟩ = shifted k (entry ⟨start, p⟩) := h p hp
  rw [Function.comp_apply, hentry, toOption_shifted]
  cases entry ⟨start, p⟩ <;> rfl

variable {src src' : Source} {s : Span}

theorem entries_shift (w : src.Window src' k s) {opening closing : Char} {entry entry' : Rule α}
    (h : ∀ r : Span, r.Inside s → r.length < s.length → entry' (r.shift k) = shifted k (entry r)) :
    entries src' opening closing entry' (s.shift k) = shifted k (entries src opening closing entry s) := by
  unfold entries
  refine ite_shift (by simp only [Span.shift]; omega) (fun _ => fail_shift rfl) fun hs => ?_
  have hlt : s.start < s.stop := Nat.lt_of_not_le hs
  obtain ⟨h1, h2, h3⟩ := src.trim_bounds hlt
  have wt := w.mono (src.trim_inside hlt)
  rw [w.trim hlt]
  generalize src.trim s = t at *
  have hfirst : src'.first (t.shift k) = src.first t := wt.first
  have hlast : src'.last (t.shift k) = src.last t := wt.last
  simp only [hfirst, hlast, Span.shift_length, Span.shift_inner k t (by omega)]
  refine ite_shift Iff.rfl (fun _ => fail_shift rfl) fun _ => ?_
  refine ite_shift Iff.rfl (fun _ => fail_shift (by simp only [Span.shift]; omega)) fun ht => ?_
  have hlen : 2 ≤ t.length := by omega
  have hin : t.inner.Inside s := ⟨by simp only [Span.inner]; omega, by simp only [Span.inner]; omega⟩
  have hentry : ∀ r : Span, t.inner.start ≤ r.start → r.stop ≤ t.inner.stop →
      entry' (r.shift k) = shifted k (entry r) := by
    intro r hr hr'
    refine h r ⟨Nat.le_trans hin.1 hr, Nat.le_trans hr' hin.2⟩ ?_
    simp only [Span.length, Span.inner] at hr hr' hlen ⊢
    omega
  rw [(w.mono hin).findAll]
  have hcommas : ∀ p ∈ src.findAll t.inner [','], t.inner.start ≤ p ∧ p + 1 ≤ t.inner.stop :=
    fun p hp => Source.findAll_bounds hp
  have hsorted := src.findAll_sorted t.inner [',']
  generalize src.findAll t.inner [','] = commas at *
  refine ite_shift (by simp) (fun _ => ?_) fun _ => ?_
  · rw [hentry _ (Nat.le_refl _) (Nat.le_refl _), shifted_map]
  · rw [show (t.inner.shift k).start = t.inner.start + k from rfl, firstEntries_shift fun p hp =>
      hentry ⟨t.inner.start, p⟩ (Nat.le_refl _) (by have := hcommas p hp; simp only; omega)]
    rcases hfe : firstEntries entry t.inner.start commas with _ | ⟨⟨comma, a⟩, _ | ⟨e, es⟩⟩
    · rfl
    · have hmem : comma ∈ commas := (mem_firstEntries.mp (hfe ▸ List.mem_cons_self)).1
      have hfilter : (commas.map (· + k)).filter (comma + k < ·) = (commas.filter (comma < ·)).map (· + k) := by
        rw [List.filter_map]
        congr 1
        refine List.filter_congr fun p _ => ?_
        simp
      have hafter : ∀ p ∈ commas.filter (comma < ·), comma + 1 ≤ p ∧ p ≤ t.inner.stop := by
        intro p hp
        obtain ⟨hp, hlt⟩ := List.mem_filter.mp hp
        have := hcommas p hp
        simp only [decide_eq_true_eq] at hlt
        omega
      have hbehind : ∀ r : Span, comma + 1 ≤ r.start → r.stop ≤ t.inner.stop →
          entry' (r.shift k) = shifted k (entry r) :=
        fun r hr => hentry r (by have := hcommas comma hmem; omega)
      have hrest := entriesFrom_shift hbehind hafter (hsorted.filter _)
      rw [Nat.add_right_comm] at hrest
      simp only [List.map_cons, List.map_nil]
      rw [hfilter, show (t.inner.shift k).stop = t.inner.stop + k from rfl, hrest]
      cases entriesFrom entry t.inner.stop (commas.filter (comma < ·)) (comma + 1) <;> rfl
    · rfl

end Rule

namespace Token

open Rule

variable {α : Type} {src src' : Source} {k : Nat} {s : Span}

theorem bounded_shift (w : src.Window src' k s) {rule : String} {f f' : Span → Except Failure α}
    (h : s.start < s.stop → f' ((src.trim s).shift k) = shifted k (f (src.trim s))) :
    (bounded src' rule (s.shift k) >>= f') = shifted k (bounded src rule s >>= f) := by
  by_cases hlt : s.start < s.stop
  · have hlt' : (s.shift k).start < (s.shift k).stop := Nat.add_lt_add_right hlt k
    rw [bounded, bounded, if_pos hlt, if_pos hlt', w.trim hlt]
    exact h hlt
  · have hlt' : ¬ (s.shift k).start < (s.shift k).stop := fun h => hlt (Nat.lt_of_add_lt_add_right h)
    rw [bounded, bounded, if_neg hlt, if_neg hlt']
    rfl

theorem single_shift (w : src.Window src' k s) (rule : String) (c : Char) :
    single src' rule c (s.shift k) = shifted k (single src rule c s) := by
  refine bounded_shift w fun hlt => ?_
  obtain ⟨h1, h2, h3⟩ := src.trim_bounds hlt
  refine ite_shift ?_ (fun _ => fail_shift rfl) fun _ => ite_shift ?_ (fun _ => ?_) fun _ => rfl
  · rw [← w.charAt _ h1 (by omega)]
    rfl
  · rw [Span.shift_length]
  · exact fail_shift (Nat.add_right_comm _ _ _)

theorem name_shift (w : src.Window src' k s) : name src' (s.shift k) = shifted k (name src s) := by
  refine bounded_shift w fun hlt => ?_
  obtain ⟨h1, h2, h3⟩ := src.trim_bounds hlt
  have wt := w.mono (src.trim_inside hlt)
  have hc : src'.charAt ((src.trim s).shift k).start = src.charAt (src.trim s).start :=
    w.charAt _ h1 (by omega)
  refine ite_shift (by rw [hc]) (fun _ => ?_) fun _ => fail_shift rfl
  rw [Source.text, Source.text, wt.slice]
  cases (src.slice (src.trim s)).findIdx? fun c => !CharClass.isNameChar c with
  | none => rfl
  | some i => exact fail_shift (Nat.add_right_comm _ _ _)

theorem decodeQuoted_shift (text : List Char) (position : Nat) :
    decodeQuoted text (position + k) = shifted k (decodeQuoted text position) := by
  fun_induction decodeQuoted text position with
  | case1 position => rfl
  | case2 position => rfl
  | case3 position x1 x2 x3 x4 rest hx ih =>
    rw [decodeQuoted, if_pos rfl, if_pos rfl, if_pos hx, shifted_map, ← ih, Nat.add_right_comm]
  | case4 position x1 x2 x3 x4 rest hx =>
    rw [decodeQuoted, if_pos rfl, if_pos rfl, if_neg hx]
    rfl
  | case5 position rest hx =>
    rw [decodeQuoted.eq_def]
    simp only [↓reduceIte]
    rfl
  | case6 position x rest hu y hy ih =>
    rw [decodeQuoted.eq_def]
    simp only [↓reduceIte, if_neg hu, hy]
    rw [shifted_map, ← ih, Nat.add_right_comm]
  | case7 position x rest hu hy =>
    rw [decodeQuoted.eq_def]
    simp only [↓reduceIte, if_neg hu, hy]
    rfl
  | case8 position c rest hc hu ih =>
    rw [decodeQuoted.eq_def]
    simp only [if_neg hc, if_pos hu]
    rw [shifted_map, ← ih, Nat.add_right_comm]
  | case9 position c rest hc hu =>
    rw [decodeQuoted.eq_def]
    simp only [if_neg hc, if_neg hu]
    rfl

theorem quotedName_shift (w : src.Window src' k s) :
    quotedName src' (s.shift k) = shifted k (quotedName src s) := by
  refine bounded_shift w fun hlt => ?_
  obtain ⟨h1, h2, h3⟩ := src.trim_bounds hlt
  have wt := w.mono (src.trim_inside hlt)
  generalize src.trim s = t at *
  have hc : src'.charAt (t.shift k).start = src.charAt t.start := wt.charAt _ (Nat.le_refl _) h2
  rw [hc, wt.charAt_last h2, Span.shift_length, Span.shift_inner k t (by omega)]
  refine ite_shift Iff.rfl (fun _ => fail_shift rfl) fun _ => ite_shift Iff.rfl (fun _ => ?_) fun ht => ?_
  · exact fail_shift (by simp only [Span.shift]; omega)
  · have hin : t.inner.Inside t := ⟨by simp only [Span.inner]; omega, by simp only [Span.inner]; omega⟩
    rw [(wt.mono hin).slice, show (t.shift k).start + 1 = t.start + 1 + k from Nat.add_right_comm _ _ _,
      decodeQuoted_shift, shifted_map]

theorem identifier_shift (w : src.Window src' k s) :
    identifier src' (s.shift k) = shifted k (identifier src s) :=
  oneOf_shift (.cons (name_shift w) (.cons (quotedName_shift w) .nil))

theorem decodeRaw_shift (text : List Char) (position : Nat) :
    decodeRaw text (position + k) = shifted k (decodeRaw text position) := by
  fun_induction decodeRaw text position with
  | case1 position => rfl
  | case2 position => rfl
  | case3 position x rest hx ih =>
    rw [decodeRaw, if_pos rfl, if_pos hx, shifted_map, ← ih, Nat.add_right_comm]
  | case4 position x rest hx hr ih =>
    rw [decodeRaw, if_pos rfl, if_neg hx, if_pos hr, shifted_map, ← ih, Nat.add_right_comm]
  | case5 position x rest hx hr =>
    rw [decodeRaw, if_pos rfl, if_neg hx, if_neg hr]
    rfl
  | case6 position c rest hc hr ih =>
    rw [decodeRaw.eq_def]
    simp only [if_neg hc, if_pos hr]
    rw [shifted_map, ← ih, Nat.add_right_comm]
  | case7 position c rest hc hr =>
    rw [decodeRaw.eq_def]
    simp only [if_neg hc, if_neg hr]
    rfl

theorem rawString_shift (w : src.Window src' k s) :
    rawString src' (s.shift k) = shifted k (rawString src s) := by
  refine bounded_shift w fun hlt => ?_
  obtain ⟨h1, h2, h3⟩ := src.trim_bounds hlt
  have wt := w.mono (src.trim_inside hlt)
  generalize src.trim s = t at *
  have hc : src'.charAt (t.shift k).start = src.charAt t.start := wt.charAt _ (Nat.le_refl _) h2
  rw [hc, wt.charAt_last h2, Span.shift_length, Span.shift_inner k t (by omega)]
  refine ite_shift Iff.rfl (fun _ => fail_shift rfl) fun _ => ite_shift Iff.rfl (fun _ => fail_shift rfl)
    fun _ => ite_shift Iff.rfl (fun _ => fail_shift (by simp only [Span.shift]; omega)) fun _ => ?_
  have hin : t.inner.Inside t := ⟨by simp only [Span.inner]; omega, by simp only [Span.inner]; omega⟩
  rw [(wt.mono hin).slice, show (t.shift k).start + 1 = t.start + 1 + k from Nat.add_right_comm _ _ _,
    decodeRaw_shift, shifted_map]

theorem number_shift (w : src.Window src' k s) : number src' (s.shift k) = shifted k (number src s) := by
  refine bounded_shift w fun hlt => ?_
  obtain ⟨h1, h2, h3⟩ := src.trim_bounds hlt
  have wt := w.mono (src.trim_inside hlt)
  generalize src.trim s = t at *
  have hc : src'.charAt (t.shift k).start = src.charAt t.start := wt.charAt _ (Nat.le_refl _) h2
  simp only [hc]
  generalize hneg : (src.charAt t.start == some '-') = negative
  have hin : Span.Inside ⟨if negative then t.start + 1 else t.start, t.stop⟩ t :=
    ⟨by cases negative <;> simp, Nat.le_refl _⟩
  have hdigits : src'.slice ⟨if negative then (t.shift k).start + 1 else (t.shift k).start, (t.shift k).stop⟩ =
      src.slice ⟨if negative then t.start + 1 else t.start, t.stop⟩ := by
    rw [← (wt.mono hin).slice]
    cases negative
    · rfl
    · simp only [Span.shift, if_true, Nat.add_right_comm]
  rw [hdigits]
  refine ite_shift Iff.rfl (fun _ => fail_shift rfl) fun _ => ite_shift Iff.rfl (fun _ => rfl) fun _ =>
    fail_shift rfl

theorem literal_shift (w : src.Window src' k s) :
    literal src' (s.shift k) = shifted k (literal src s) := by
  refine bounded_shift w fun hlt => ?_
  obtain ⟨h1, h2, h3⟩ := src.trim_bounds hlt
  have wt := w.mono (src.trim_inside hlt)
  generalize src.trim s = t at *
  have hc : src'.charAt (t.shift k).start = src.charAt t.start := wt.charAt _ (Nat.le_refl _) h2
  have hin : t.inner.Inside t := ⟨by simp only [Span.inner]; omega, by simp only [Span.inner]; omega⟩
  rw [hc, wt.charAt_last h2, Span.shift_length, Span.shift_inner k t (by omega), (wt.mono hin).slice]
  refine ite_shift Iff.rfl (fun _ => fail_shift rfl) fun _ => ite_shift Iff.rfl (fun _ => fail_shift rfl)
    fun _ => ite_shift Iff.rfl (fun _ => fail_shift (by simp only [Span.shift]; omega)) fun _ => ?_
  cases decodeLiteral (src.slice t.inner) with
  | none => rfl
  | some text => cases hj : Json.read text <;> simp only [hj] <;> rfl

end Token

namespace Form

open Rule

variable {src src' : Source} {nested nested' : Rule Expr} {k : Nat} {s : Span}

/-- On every range inside `s` that is shorter than `s`, one rule gives `k` places
further on what another gives. -/
def Agree (nested nested' : Rule Expr) (k : Nat) (s : Span) : Prop :=
  ∀ r : Span, r.Inside s → r.length < s.length → nested' (r.shift k) = shifted k (nested r)

theorem Agree.mono {r : Span} (h : Agree nested nested' k s) (hr : r.Inside s) :
    Agree nested nested' k r := by
  intro q hq hlt
  refine h q (hq.trans hr) ?_
  have := hr.1
  have := hr.2
  simp only [Span.length] at hlt ⊢
  omega

theorem mark_shift {α : Type} (w : src.Window src' k s) (rule : String) (c : Char) (a : α) :
    mark src' rule c a (s.shift k) = shifted k (mark src rule c a s) := by
  rw [mark, Token.single_shift w, mark, shifted_map]

theorem identifier_shift (w : src.Window src' k s) :
    identifier src' (s.shift k) = shifted k (identifier src s) := by
  rw [identifier, Token.identifier_shift w, identifier, shifted_map]

/-! ### Operators -/

/-- A split whose cuts leave out something on either side. -/
theorem firstSplit_agree {α β : Type} {left left' : Rule α} {right right' : Rule β} {r : Span}
    (needle : List Char) (width : Nat) (w : src.Window src' k s) (hr : r.Inside s)
    (hl : ∀ q : Span, q.Inside s → q.length < s.length → left' (q.shift k) = shifted k (left q))
    (hright : ∀ q : Span, q.Inside s → q.length < s.length → right' (q.shift k) = shifted k (right q))
    (hneedle : 0 < needle.length) (hwidth : width ≤ needle.length)
    (hcut : ∀ p ∈ src.findAll r needle, s.start < p + width) :
    firstSplit (s.shift k) (src'.findAll (r.shift k) needle) width left' right' =
      firstSplit s (src.findAll r needle) width left right := by
  rw [(w.mono hr).findAll]
  have hs1 := hr.1
  have hs2 := hr.2
  apply firstSplit_shift
  · intro p hp
    have hb := Source.findAll_bounds hp
    refine hl _ ⟨Nat.le_refl _, ?_⟩ ?_ <;> simp only [Span.length] <;> omega
  · intro p hp
    have hb := Source.findAll_bounds hp
    have hc := hcut p hp
    refine hright _ ⟨?_, Nat.le_refl _⟩ ?_ <;> simp only [Span.length] <;> omega

theorem joined_shift (w : src.Window src' k s) (h : Agree nested nested' k s) {rule symbol : String}
    (hsymbol : 0 < symbol.length) (op : Operator) :
    joined src' nested' rule symbol op (s.shift k) = shifted k (joined src nested rule symbol op s) := by
  refine Token.bounded_shift w fun hlt => ?_
  obtain ⟨h1, h2, h3⟩ := src.trim_bounds hlt
  have wt := w.mono (src.trim_inside hlt)
  have ht := h.mono (src.trim_inside hlt)
  generalize src.trim s = t at *
  have hsplit := firstSplit_agree symbol.toList symbol.length wt t.inner_inside ht
    ht (by rwa [String.length_toList]) (Nat.le_of_eq String.length_toList.symm) fun p hp => by
      have := (Source.findAll_bounds hp).1
      simp only [Span.inner] at this
      omega
  rw [Span.shift_inner k t (by omega), hsplit]
  cases firstSplit t (src.findAll t.inner symbol.toList) symbol.length nested nested with
  | none => exact fail_shift rfl
  | some sides => rfl

theorem comparison_shift (w : src.Window src' k s) (h : Agree nested nested' k s) :
    comparison src' nested' (s.shift k) = shifted k (comparison src nested s) := by
  refine Token.bounded_shift w fun hlt => ?_
  obtain ⟨h1, h2, h3⟩ := src.trim_bounds hlt
  have wt := w.mono (src.trim_inside hlt)
  have ht := h.mono (src.trim_inside hlt)
  generalize src.trim s = t at *
  have hsplit : ∀ c : Comparator,
      firstSplit (t.shift k) (src'.findAll (t.shift k) c.symbol.toList) c.symbol.length nested' nested' =
        firstSplit t (src.findAll t c.symbol.toList) c.symbol.length nested nested := by
    intro c
    have hc : 0 < c.symbol.length := by cases c <;> decide
    refine firstSplit_agree c.symbol.toList c.symbol.length wt ⟨Nat.le_refl _, Nat.le_refl _⟩ ht ht
      (by rwa [String.length_toList]) (Nat.le_of_eq String.length_toList.symm) fun p hp => ?_
    have := (Source.findAll_bounds hp).1
    omega
  simp only [hsplit]
  split
  · rfl
  · exact fail_shift rfl

theorem negated_shift (w : src.Window src' k s) (h : Agree nested nested' k s) :
    negated src' nested' (s.shift k) = shifted k (negated src nested s) := by
  refine Token.bounded_shift w fun hlt => ?_
  obtain ⟨h1, h2, h3⟩ := src.trim_bounds hlt
  have wt := w.mono (src.trim_inside hlt)
  have ht := h.mono (src.trim_inside hlt)
  generalize src.trim s = t at *
  have hc : src'.charAt (t.shift k).start = src.charAt t.start := wt.charAt _ (Nat.le_refl _) h2
  rw [hc]
  refine ite_shift Iff.rfl (fun _ => fail_shift rfl) fun _ => ?_
  have hn := ht ⟨t.start + 1, t.stop⟩ ⟨Nat.le_succ _, Nat.le_refl _⟩ (by simp only [Span.length]; omega)
  rw [shifted_map, ← hn, Span.shift, Nat.add_right_comm]
  rfl

theorem parenthesised_shift (w : src.Window src' k s) (h : Agree nested nested' k s) :
    parenthesised src' nested' (s.shift k) = shifted k (parenthesised src nested s) := by
  refine Token.bounded_shift w fun hlt => ?_
  obtain ⟨h1, h2, h3⟩ := src.trim_bounds hlt
  have wt := w.mono (src.trim_inside hlt)
  have ht := h.mono (src.trim_inside hlt)
  generalize src.trim s = t at *
  have hc : src'.charAt (t.shift k).start = src.charAt t.start := wt.charAt _ (Nat.le_refl _) h2
  rw [hc, wt.charAt_last h2, Span.shift_length, Span.shift_inner k t (by omega)]
  refine ite_shift Iff.rfl (fun _ => fail_shift rfl) fun _ => ite_shift Iff.rfl (fun _ => ?_) fun _ => ?_
  · exact fail_shift (by simp only [Span.shift]; omega)
  · rw [shifted_map, ht _ t.inner_inside (by simp only [Span.length, Span.inner]; omega)]

/-! ### Lists, objects and calls -/

theorem listOf_shift (w : src.Window src' k s) (h : Agree nested nested' k s) :
    listOf src' nested' (s.shift k) = shifted k (listOf src nested s) := by
  rw [listOf, entries_shift w h, listOf, shifted_map]

theorem keyValue_shift (w : src.Window src' k s) (h : Agree nested nested' k s) :
    keyValue src' nested' (s.shift k) = shifted k (keyValue src nested s) := by
  refine Token.bounded_shift w fun hlt => ?_
  obtain ⟨h1, h2, h3⟩ := src.trim_bounds hlt
  have wt := w.mono (src.trim_inside hlt)
  have ht := h.mono (src.trim_inside hlt)
  generalize src.trim s = t at *
  have hkey : ∀ q : Span, q.Inside t → q.length < t.length →
      Token.identifier src' (q.shift k) = shifted k (Token.identifier src q) :=
    fun q hq _ => Token.identifier_shift (wt.mono hq)
  have hsplit := firstSplit_agree [':'] 1 wt t.inner_inside hkey ht (by decide) (Nat.le_refl _)
    fun p hp => by
      have := (Source.findAll_bounds hp).1
      simp only [Span.inner] at this
      omega
  rw [Span.shift_inner k t (by omega), hsplit]
  cases firstSplit t (src.findAll t.inner [':']) 1 (Token.identifier src) nested with
  | none => exact fail_shift rfl
  | some sides => rfl

theorem hashOf_shift (w : src.Window src' k s) (h : Agree nested nested' k s) :
    hashOf src' nested' (s.shift k) = shifted k (hashOf src nested s) := by
  rw [hashOf, entries_shift w fun r hr _ => keyValue_shift (w.mono hr) (h.mono hr), hashOf, shifted_map]

theorem reference_shift (w : src.Window src' k s) (h : Agree nested nested' k s) :
    reference src' nested' (s.shift k) = shifted k (reference src nested s) := by
  refine Token.bounded_shift w fun hlt => ?_
  obtain ⟨h1, h2, h3⟩ := src.trim_bounds hlt
  have wt := w.mono (src.trim_inside hlt)
  have ht := h.mono (src.trim_inside hlt)
  generalize src.trim s = t at *
  have hc : src'.charAt (t.shift k).start = src.charAt t.start := wt.charAt _ (Nat.le_refl _) h2
  rw [hc]
  refine ite_shift Iff.rfl (fun _ => fail_shift rfl) fun _ => ?_
  have hn := ht ⟨t.start + 1, t.stop⟩ ⟨Nat.le_succ _, Nat.le_refl _⟩ (by simp only [Span.length]; omega)
  rw [← hn, Span.shift, Nat.add_right_comm]
  rfl

/-- An argument may be the expression of the whole range, so the rule for it has to
agree there too. -/
theorem argument_shift (w : src.Window src' k s) (h : Agree nested nested' k s)
    (hs : nested' (s.shift k) = shifted k (nested s)) :
    argument src' nested' (s.shift k) = shifted k (argument src nested s) := by
  refine oneOf_shift (.cons ?_ (.cons ?_ .nil))
  · exact (congrArg (Except.map Argument.value) hs).trans (shifted_map _ _).symm
  · exact (congrArg (Except.map Argument.reference) (reference_shift w h)).trans (shifted_map _ _).symm

theorem noArguments_shift (w : src.Window src' k s) :
    noArguments src' (s.shift k) = shifted k (noArguments src s) := by
  refine Token.bounded_shift w fun hlt => ?_
  obtain ⟨h1, h2, h3⟩ := src.trim_bounds hlt
  have wt := w.mono (src.trim_inside hlt)
  generalize src.trim s = t at *
  have hc : src'.charAt (t.shift k).start = src.charAt t.start := wt.charAt _ (Nat.le_refl _) h2
  have hclose : src'.trimLeft ⟨(t.shift k).start + 1, (t.shift k).stop⟩ =
      src.trimLeft ⟨t.start + 1, t.stop⟩ + k := by
    rw [← (wt.mono (r := ⟨t.start + 1, t.stop⟩) ⟨Nat.le_succ _, Nat.le_refl _⟩).trimLeft]
    simp only [Span.shift, Nat.add_right_comm]
  have hb : t.start + 1 ≤ src.trimLeft ⟨t.start + 1, t.stop⟩ := (src.afterSpaces_bounds _ _).1
  rw [hc]
  simp only [hclose]
  generalize src.trimLeft ⟨t.start + 1, t.stop⟩ = close at *
  refine ite_shift Iff.rfl (fun _ => fail_shift rfl) fun _ => ite_shift ?_ (fun _ => fail_shift rfl)
    fun _ => ite_shift ?_ (fun _ => fail_shift (Nat.add_right_comm _ _ _)) fun _ => rfl
  · by_cases hle : t.stop ≤ close
    · exact iff_of_true (.inl (Nat.add_le_add_right hle k)) (.inl hle)
    · rw [wt.charAt close (by omega) (by omega)]
      simp only [Span.shift, Nat.add_le_add_iff_right]
  · simp only [Span.shift]
    omega

theorem arguments_shift (w : src.Window src' k s) (h : Agree nested nested' k s) :
    arguments src' nested' (s.shift k) = shifted k (arguments src nested s) :=
  oneOf_shift (.cons (noArguments_shift w) (.cons
    (entries_shift w fun r hr hlt => argument_shift (w.mono hr) (h.mono hr) (h r hr hlt)) .nil))

theorem call_shift (w : src.Window src' k s) (h : Agree nested nested' k s) :
    call src' nested' (s.shift k) = shifted k (call src nested s) := by
  refine Token.bounded_shift w fun hlt => ?_
  obtain ⟨h1, h2, h3⟩ := src.trim_bounds hlt
  have wt := w.mono (src.trim_inside hlt)
  have ht := h.mono (src.trim_inside hlt)
  generalize src.trim s = t at *
  have hparen : (src'.findChar (t.shift k) '(').getD (t.shift k).start =
      (src.findChar t '(').getD t.start + k := by
    rw [wt.findChar]
    cases src.findChar t '(' <;> rfl
  have hb : t.start ≤ (src.findChar t '(').getD t.start ∧ (src.findChar t '(').getD t.start ≤ t.stop := by
    cases hf : src.findChar t '(' with
    | none => exact ⟨Nat.le_refl _, Nat.le_of_lt h2⟩
    | some p => exact ⟨(src.findChar_bounds hf).1, Nat.le_of_lt (src.findChar_bounds hf).2⟩
  simp only [hparen]
  generalize (src.findChar t '(').getD t.start = paren at *
  refine ite_shift (Nat.add_right_cancel_iff) (fun _ => fail_shift rfl) fun _ => ?_
  have hname : functionName src' (t.shift k) (paren + k) = shifted k (functionName src t paren) := by
    have hn : Token.name src' ⟨(t.shift k).start, paren + k⟩ = shifted k (Token.name src ⟨t.start, paren⟩) :=
      Token.name_shift (wt.mono (r := ⟨t.start, paren⟩) ⟨Nat.le_refl _, hb.2⟩)
    rw [functionName, hn, functionName]
    cases Token.name src ⟨t.start, paren⟩ with
    | ok name => rfl
    | error f =>
      cases f
      rfl
  have hin : Span.Inside ⟨paren, t.stop⟩ t := ⟨hb.1, Nat.le_refl _⟩
  have hargs : arguments src' nested' ⟨paren + k, (t.shift k).stop⟩ =
      shifted k (arguments src nested ⟨paren, t.stop⟩) := arguments_shift (wt.mono hin) (ht.mono hin)
  rw [hname, hargs, shifted_bind]
  simp only [shifted_map]

/-! ### Dots and brackets -/

theorem afterDot_shift (w : src.Window src' k s) (h : Agree nested nested' k s) :
    afterDot src' nested' (s.shift k) = shifted k (afterDot src nested s) :=
  oneOf_shift (.cons (identifier_shift w) (.cons (listOf_shift w h) (.cons (hashOf_shift w h)
    (.cons (call_shift w h) (.cons (mark_shift w _ _ _) .nil)))))

theorem dotted_shift (w : src.Window src' k s) (h : Agree nested nested' k s) :
    dotted src' nested' (s.shift k) = shifted k (dotted src nested s) := by
  refine Token.bounded_shift w fun hlt => ?_
  obtain ⟨h1, h2, h3⟩ := src.trim_bounds hlt
  have wt := w.mono (src.trim_inside hlt)
  have ht := h.mono (src.trim_inside hlt)
  generalize src.trim s = t at *
  have hright : ∀ q : Span, q.Inside t → q.length < t.length →
      afterDot src' nested' (q.shift k) = shifted k (afterDot src nested q) :=
    fun q hq _ => afterDot_shift (wt.mono hq) (ht.mono hq)
  have hsplit := firstSplit_agree ['.'] 1 wt t.inner_inside ht hright (by decide) (Nat.le_refl _)
    fun p hp => by
      have := (Source.findAll_bounds hp).1
      simp only [Span.inner] at this
      omega
  rw [Span.shift_inner k t (by omega), hsplit]
  cases firstSplit t (src.findAll t.inner ['.']) 1 nested (afterDot src nested) with
  | none => exact fail_shift rfl
  | some sides => rfl

theorem sliceBound_shift (w : src.Window src' k s) :
    sliceBound src' (s.shift k) = shifted k (sliceBound src s) := by
  unfold sliceBound
  refine ite_shift (by rw [w.slice]) (fun _ => rfl) fun _ => ?_
  rw [Token.number_shift w, shifted_map]

theorem slice_shift (w : src.Window src' k s) : slice src' (s.shift k) = shifted k (slice src s) := by
  refine Token.bounded_shift w fun hlt => ?_
  obtain ⟨h1, h2, h3⟩ := src.trim_bounds hlt
  have wt := w.mono (src.trim_inside hlt)
  generalize src.trim s = t at *
  rw [wt.findChar]
  cases hf : src.findChar t ':' with
  | none => exact fail_shift rfl
  | some first =>
    have hfirst := src.findChar_bounds hf
    have hsecond : src'.findChar ⟨first + k + 1, (t.shift k).stop⟩ ':' =
        (src.findChar ⟨first + 1, t.stop⟩ ':').map (· + k) := by
      rw [← (wt.mono (r := ⟨first + 1, t.stop⟩) ⟨by simp only; omega, Nat.le_refl _⟩).findChar]
      simp only [Span.shift, Nat.add_right_comm]
    have hbound : ∀ a b : Nat, t.start ≤ a → b ≤ t.stop →
        sliceBound src' ⟨a + k, b + k⟩ = shifted k (sliceBound src ⟨a, b⟩) := fun a b ha hb =>
      sliceBound_shift (wt.mono (r := ⟨a, b⟩) ⟨ha, hb⟩)
    have hstart := hbound t.start first (Nat.le_refl _) (by omega)
    simp only [Option.map_some, hsecond]
    cases hg : src.findChar ⟨first + 1, t.stop⟩ ':' with
    | none =>
      have hstop := hbound (first + 1) t.stop (by omega) (Nat.le_refl _)
      have hstep := hbound t.stop t.stop (by omega) (Nat.le_refl _)
      rw [Nat.add_right_comm] at hstop
      simp only [Option.map_none, Option.getD_none, shifted_bind]
      simp only [Span.shift]
      rw [hstart, hstop, hstep]
      rfl
    | some second =>
      have hsec := src.findChar_bounds hg
      simp only at hsec
      have hstop := hbound (first + 1) second (by omega) (by omega)
      have hstep := hbound (second + 1) t.stop (by omega) (Nat.le_refl _)
      rw [Nat.add_right_comm] at hstop hstep
      simp only [Option.map_some, Option.getD_some, shifted_bind]
      simp only [Span.shift]
      rw [hstart, hstop, hstep]
      rfl

theorem bracketContent_shift (w : src.Window src' k s) :
    bracketContent src' (s.shift k) = shifted k (bracketContent src s) := by
  refine oneOf_shift (.cons ?_ (.cons (mark_shift w _ _ _) (.cons ?_ .nil)))
  · exact (congrArg (Except.map Bracket.number) (Token.number_shift w)).trans (shifted_map _ _).symm
  · exact (congrArg (Except.map Bracket.slice) (slice_shift w)).trans (shifted_map _ _).symm

theorem bracket_shift (w : src.Window src' k s) (h : Agree nested nested' k s) :
    bracket src' nested' (s.shift k) = shifted k (bracket src nested s) := by
  refine Token.bounded_shift w fun hlt => ?_
  obtain ⟨h1, h2, h3⟩ := src.trim_bounds hlt
  have wt := w.mono (src.trim_inside hlt)
  have ht := h.mono (src.trim_inside hlt)
  generalize src.trim s = t at *
  have hc : src'.charAt (t.shift k).start = src.charAt t.start := wt.charAt _ (Nat.le_refl _) h2
  rw [hc, wt.charAt_last h2, Span.shift_length, Span.shift_inner k t (by omega)]
  refine ite_shift Iff.rfl (fun _ => fail_shift rfl) fun _ => ite_shift Iff.rfl
    (fun _ => fail_shift (by simp only [Span.shift]; omega)) fun hl => ite_shift Iff.rfl (fun _ => rfl)
    fun hl' => ?_
  have hlen : 2 < t.length := by omega
  simp only [Span.length] at hlen
  refine ite_shift ?_ (fun _ => ?_) fun _ => bracketContent_shift (wt.mono t.inner_inside)
  · rw [← wt.charAt (t.start + 1) (by omega) (by omega), Span.shift, Nat.add_right_comm]
  · have hn := ht ⟨t.start + 2, t.stop - 1⟩ ⟨by simp only; omega, by simp only; omega⟩
      (by simp only [Span.length]; omega)
    rw [shifted_map, ← hn]
    simp only [Span.shift]
    congr 3 <;> omega

theorem indexedLeft_shift (w : src.Window src' k s) (h : Agree nested nested' k s) :
    indexedLeft src' nested' (s.shift k) = shifted k (indexedLeft src nested s) := by
  refine Token.bounded_shift w fun hlt => ?_
  obtain ⟨h1, h2, h3⟩ := src.trim_bounds hlt
  have wt := w.mono (src.trim_inside hlt)
  have ht := h.mono (src.trim_inside hlt)
  generalize src.trim s = t at *
  have hright : ∀ q : Span, q.Inside t → q.length < t.length →
      bracket src' nested' (q.shift k) = shifted k (bracket src nested q) :=
    fun q hq _ => bracket_shift (wt.mono hq) (ht.mono hq)
  have hsplit := firstSplit_agree ['['] 0 wt t.inner_inside ht hright (by decide) (Nat.zero_le _)
    fun p hp => (Source.findAll_bounds hp).1
  rw [Span.shift_inner k t (by omega), hsplit]
  cases firstSplit t (src.findAll t.inner ['[']) 0 nested (bracket src nested) with
  | none => exact fail_shift rfl
  | some sides => rfl

theorem indexed_shift (w : src.Window src' k s) (h : Agree nested nested' k s) :
    indexed src' nested' (s.shift k) = shifted k (indexed src nested s) := by
  refine Token.bounded_shift w fun hlt => ?_
  have wt := w.mono (src.trim_inside hlt)
  have ht := h.mono (src.trim_inside hlt)
  refine oneOf_shift (.cons (indexedLeft_shift wt ht) (.cons ?_ .nil))
  exact (congrArg (Except.map Expr.index) (bracket_shift wt ht)).trans (shifted_map _ _).symm

/-! ### All of them -/

theorem alone_shift {rule rule' : Rule Selector} (h : rule' (s.shift k) = shifted k (rule s)) :
    alone rule' (s.shift k) = shifted k (alone rule s) := by
  rw [alone, h, alone, shifted_map]

/-- Each of the forms reads its range and nothing else. -/
theorem all_shift (w : src.Window src' k s) (h : Agree nested nested' k s) :
    List.Forall₂ (fun rule rule' => rule' (s.shift k) = shifted k (rule s)) (all src nested)
      (all src' nested') :=
  .cons (dotted_shift w h) <| .cons (indexed_shift w h) <| .cons (comparison_shift w h) <|
  .cons (joined_shift w h (by decide) _) <| .cons (alone_shift (identifier_shift w)) <|
  .cons (joined_shift w h (by decide) _) <| .cons (negated_shift w h) <|
  .cons (parenthesised_shift w h) <| .cons (alone_shift (mark_shift w _ _ _)) <|
  .cons (alone_shift (listOf_shift w h)) <| .cons (alone_shift (hashOf_shift w h)) <|
  .cons ((congrArg (Except.map Expr.literal) (Token.literal_shift w)).trans (shifted_map _ _).symm) <|
  .cons (alone_shift (call_shift w h)) <| .cons (joined_shift w h (by decide) _) <|
  .cons ((congrArg (Except.map Expr.raw) (Token.rawString_shift w)).trans (shifted_map _ _).symm) <|
  .cons (mark_shift w _ _ _) .nil

end Form

namespace Expr

open Rule

variable {src src' : Source} {limit limit' budget budget' : Nat} {s : Span}

theorem rule_of_le (h : s.stop ≤ s.start) :
    rule src limit budget s = fail "expression" .emptyRange s.start := by
  cases budget <;> rw [rule, Token.bounded, if_neg (Nat.not_lt.mpr h)] <;> rfl

/-- **An expression depends on the characters of its range.** The same characters
`k` places further on give the same tree, or the same failure `k` places further
on, if both are read with the same budget, or each with one that is no less than
the length of the range. -/
theorem rule_shift {k : Nat} (w : src.Window src' k s)
    (h : limit = limit' ∧ budget = budget' ∨ s.length ≤ budget ∧ s.length ≤ budget') :
    rule src' limit' budget' (s.shift k) = shifted k (rule src limit budget s) := by
  induction budget generalizing budget' s with
  | zero =>
    rcases h with ⟨rfl, rfl⟩ | ⟨h, -⟩
    · exact Token.bounded_shift w fun _ => fail_shift rfl
    · have hle : s.stop ≤ s.start := Nat.sub_eq_zero_iff_le.mp (Nat.le_zero.mp h)
      rw [rule_of_le hle, rule_of_le (s := s.shift k) (Nat.add_le_add_right hle k)]
      exact fail_shift rfl
  | succ budget ih =>
    by_cases hlt : s.start < s.stop
    · obtain ⟨b, rfl⟩ : ∃ b, budget' = b + 1 := by
        refine ⟨budget' - 1, ?_⟩
        simp only [Span.length] at h
        omega
      refine Token.bounded_shift w fun hlt => oneOf_shift (Form.all_shift (w.mono (src.trim_inside hlt)) ?_)
      intro r hr hshort
      have ht := src.trim_length_le hlt
      exact ih (w.mono (hr.trans (src.trim_inside hlt))) (by omega)
    · have hle : s.stop ≤ s.start := Nat.le_of_not_lt hlt
      rw [rule_of_le hle, rule_of_le (s := s.shift k) (Nat.add_le_add_right hle k)]
      exact fail_shift rfl

end Expr

end PathQuery
