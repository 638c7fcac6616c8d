/-
# Rules that check their positions

A checked rule is a rule whose range, differences, sums and accesses are checked (`Checked.Parser`). It
fails like the rule that it checks; a fault is no failure, and no other rule is tried after one. A
checked rule also counts the levels of nesting that it is inside of.

`Gives` says that a checked reading meets no fault, gives what the unchecked one gives, and leaves
the count as it found it. A checked rule is `Safe` if it does so on every range that the text
holds, up to a length. What is put together from safe rules is safe.

Key definitions: `Checked.Parser`, `Checked.Gives`, `Checked.Safe`.
Key theorems: `Checked.Safe.bounded`, `Checked.firstOf_gives`, `Checked.splitSearch_gives`,
`Checked.multiSelect_safe`.
-/
import PathQuery.Proofs.Checked
import PathQuery.Proofs.Entries
import PathQuery.Token
import Mathlib.Data.List.Forall2

namespace PathQuery

namespace Checked

variable {α β : Type} {src : Source} {s : Span} {depth bound : Nat}

/-! ### Readings -/

/-- A reading that counts levels of nesting, may fail, and stops at a fault. -/
abbrev Parser (α : Type) := ExceptT Failure (StateT Nat (Except Fault)) α

/-- A failure. -/
def fail (rule : String) (reason : Reason) (position : Nat) : Parser α := throw (.leaf rule reason position)

/-- What a reading gives, be it a failure. -/
def attempt (x : Parser α) : Parser (Except Failure α) := ExceptT.lift x.run

/-- A reading meets no fault, gives a result, and goes back to the level at which it starts. -/
def Gives (depth : Nat) (x : Parser α) (r : Except Failure α) : Prop := x depth = .ok (r, depth)

/-- On every range that the text holds, up to a length, a checked rule gives what a rule gives. -/
def Safe (src : Source) (depth bound : Nat) (checked : Span → Parser α) (rule : Rule α) : Prop :=
  ∀ s, src.Holds s → s.stop ≤ s.start + bound → Gives depth (checked s) (rule s)

/-- After a result comes the next step, at the level so far. -/
theorem run_ok {x : Parser α} {a : α} {inner : Nat} (h : x depth = .ok (.ok a, inner)) (f : α → Parser β) :
    (x >>= f) depth = f a inner := by
  show (x depth >>= fun p => ExceptT.bindCont f p.1 p.2) = f a inner
  rw [h]
  rfl

/-- After a failure comes nothing. -/
theorem run_error {x : Parser α} {e : Failure} {inner : Nat} (h : x depth = .ok (.error e, inner))
    (f : α → Parser β) : (x >>= f) depth = .ok (.error e, inner) := by
  show (x depth >>= fun p => ExceptT.bindCont f p.1 p.2) = .ok (.error e, inner)
  rw [h]
  rfl

/-- A failure that is looked at is a result. -/
theorem attempt_gives {x : Parser α} {r : Except Failure α} (hx : Gives depth x r) :
    Gives depth (attempt x) (.ok r) := by
  show (x depth >>= fun p => Except.ok (Except.ok p.1, p.2)) = .ok (.ok r, depth)
  unfold Gives at hx
  rw [hx]
  rfl

namespace Gives

theorem pure (a : α) : Gives depth (pure a) (.ok a) := rfl

theorem fail (rule : String) (reason : Reason) (position : Nat) :
    Gives depth (fail rule reason position : Parser α) (Rule.fail rule reason position) := rfl

/-- After a result comes the next step. -/
theorem bind {x : Parser α} {r : Except Failure α} {f : α → Parser β} {g : α → Except Failure β} (hx : Gives depth x r)
    (hf : ∀ a, r = .ok a → Gives depth (f a) (g a)) : Gives depth (x >>= f) (r >>= g) := by
  cases r with
  | error e => exact run_error hx f
  | ok a => exact (run_ok hx f).trans (hf a rfl)

/-- After a result that is known comes the next step. -/
theorem andThen {x : Parser α} {a : α} {f : α → Parser β} {r : Except Failure β} (hx : Gives depth x (.ok a))
    (hf : Gives depth (f a) r) : Gives depth (x >>= f) r :=
  bind (g := fun _ => r) hx fun _ ha => Except.ok.inj ha ▸ hf

theorem lift {x : Except Fault α} {a : α} (hx : x = .ok a) : Gives depth (liftM x) (.ok a) := by
  subst hx
  rfl

/-- A check that succeeds changes nothing. -/
theorem checked {x : Except Fault α} {a : α} {f : α → Parser β} {r : Except Failure β} (hx : x = .ok a)
    (hf : Gives depth (f a) r) : Gives depth (liftM x >>= f) r :=
  andThen (lift hx) hf

theorem ite {c : Prop} [Decidable c] {x y : Parser α} {r q : Except Failure α} (hx : c → Gives depth x r)
    (hy : ¬ c → Gives depth y q) : Gives depth (if c then x else y) (if c then r else q) := by
  by_cases h : c
  · rw [if_pos h, if_pos h]
    exact hx h
  · rw [if_neg h, if_neg h]
    exact hy h

theorem map {x : Parser α} {r : Except Failure α} (hx : Gives depth x r) (f : α → β) :
    Gives depth (f <$> x) (r.map f) := by
  rw [map_eq_pure_bind]
  cases r with
  | error e => exact bind (g := fun a => .ok (f a)) hx fun a _ => pure (f a)
  | ok a => exact bind (g := fun a => .ok (f a)) hx fun a _ => pure (f a)

theorem attempt {x : Parser α} {r : Except Failure α} {f : Except Failure α → Parser β} {q : Except Failure β}
    (hx : Gives depth x r) (hf : Gives depth (f r) q) : Gives depth (attempt x >>= f) q :=
  andThen (attempt_gives hx) hf

end Gives

namespace Safe

variable {checked : Span → Parser α} {rule : Rule α}

theorem mono {more : Nat} (h : Safe src depth more checked rule) (hle : bound ≤ more) :
    Safe src depth bound checked rule :=
  fun s hs hbound => h s hs (by omega)

theorem range (h : Safe src depth bound checked rule) {a b : Nat} (hab : a ≤ b) (hb : b ≤ src.size)
    (hbound : b ≤ a + bound) : Gives depth (checked ⟨a, b⟩) (rule ⟨a, b⟩) :=
  h ⟨a, b⟩ ⟨hab, hb⟩ hbound

end Safe

/-! ### Rules put together -/

/-- The range without the spaces at its ends, which has to hold something. -/
def bounded (src : Source) (rule : String) (s : Span) : Parser Span := do
  within src s
  if s.start < s.stop then trim src s
  else fail rule .emptyRange s.start

/-- The result of the first rule that matches, or the failures of all. -/
def attempts (s : Span) : List (Span → Parser α) → Parser (Except (List Failure) α)
  | [] => pure (.error [])
  | rule :: rest => do
    match ← attempt (rule s) with
    | .ok a => pure (.ok a)
    | .error f =>
      match ← attempts s rest with
      | .ok a => pure (.ok a)
      | .error fs => pure (.error (f :: fs))

/-- The first of several rules that matches. -/
def firstOf (src : Source) (name : String) (rules : List (Span → Parser α)) (s : Span) : Parser α := do
  within src s
  match ← attempts s rules with
  | .ok a => pure a
  | .error fs => throw (.exhausted name s.start fs)

/-- One rule on one range, then another on another. -/
def both (left : Span → Parser α) (l : Span) (right : Span → Parser β) (r : Span) : Parser (α × β) := do
  let a ← left l
  let b ← right r
  pure (a, b)

/-- The two sides of the first cut that suits both rules. -/
def splitSearch (src : Source) (s : Span) (width : Nat) (left : Span → Parser α) (right : Span → Parser β) :
    List Nat → Parser (Option (α × β))
  | [] => pure none
  | p :: cuts => do
    let next ← sum src p width
    match ← attempt (both left ⟨s.start, p⟩ right ⟨next, s.stop⟩) with
    | .ok sides => pure (some sides)
    | .error _ => splitSearch src s width left right cuts

/-- A rule that trims its range first is checked on the trimmed range. -/
theorem Safe.bounded {rule : String} {f : Span → Parser α} {g : Span → Except Failure α}
    (h : ∀ t : Span, t.start < t.stop → t.stop ≤ src.size → t.stop ≤ t.start + bound → Gives depth (f t) (g t)) :
    Safe src depth bound (fun s => bounded src rule s >>= f) (fun s => Token.bounded src rule s >>= g) := by
  intro s hs hbound
  have htrim : Gives depth (Checked.bounded src rule s) (Token.bounded src rule s) :=
    .checked (within_ok hs) (.ite (fun hlt => .lift (trim_ok hlt hs.2)) fun _ => .fail ..)
  refine htrim.bind fun t ht => ?_
  unfold Token.bounded at ht
  split at ht
  · rename_i hlt
    cases ht
    obtain ⟨hstart, hpos, hstop⟩ := src.trim_bounds hlt
    exact h _ hpos (Nat.le_trans hstop hs.2) (by omega)
  · cases ht

theorem attempts_gives {checked : List (Span → Parser α)} {rules : List (Rule α)}
    (h : List.Forall₂ (fun c r => Gives depth (c s) (r s)) checked rules) :
    Gives depth (attempts s checked) (.ok (Rule.attempts s rules)) := by
  induction h with
  | nil => exact .pure _
  | @cons c r cs rs hc _ ih =>
    unfold attempts Rule.attempts
    refine .attempt hc ?_
    cases r s with
    | ok a => exact .pure _
    | error f =>
      refine ih.andThen ?_
      cases Rule.attempts s rs with
      | ok a => exact .pure _
      | error fs => exact .pure _

/-- A choice between rules that are safe is safe. -/
theorem firstOf_gives {name : String} {checked : List (Span → Parser α)} {rules : List (Rule α)} (hs : src.Holds s)
    (h : List.Forall₂ (fun c r => Gives depth (c s) (r s)) checked rules) :
    Gives depth (firstOf src name checked s) (Rule.oneOf name rules s) := by
  unfold firstOf Rule.oneOf
  refine .checked (within_ok hs) ((attempts_gives h).andThen ?_)
  cases Rule.attempts s rules with
  | ok a => exact .pure _
  | error fs => rfl

theorem both_gives {left : Span → Parser α} {right : Span → Parser β} {l : Rule α} {r : Rule β} {x y : Span}
    (hl : Gives depth (left x) (l x)) (hr : Gives depth (right y) (r y)) :
    Gives depth (both left x right y) (Rule.pair l x r y) := by
  have hpair : Rule.pair l x r y = (l x >>= fun a => r y >>= fun b => .ok (a, b)) := by
    unfold Rule.pair
    cases l x with
    | error f => rfl
    | ok a =>
      cases r y with
      | error f => rfl
      | ok b => rfl
  rw [hpair]
  exact hl.bind fun _ _ => hr.bind fun _ _ => .pure _

/-- A search of cuts is safe if both rules are, on the sides of each. -/
theorem splitSearch_gives {width : Nat} {left : Span → Parser α} {right : Span → Parser β} {l : Rule α} {r : Rule β} :
    ∀ {cuts : List Nat}, (∀ p ∈ cuts, p + width ≤ src.size + 5 ∧ Gives depth (left ⟨s.start, p⟩) (l ⟨s.start, p⟩) ∧
      Gives depth (right ⟨p + width, s.stop⟩) (r ⟨p + width, s.stop⟩)) →
        Gives depth (splitSearch src s width left right cuts) (.ok (Rule.firstSplit s cuts width l r))
  | [], _ => .pure _
  | p :: cuts, h => by
    obtain ⟨⟨hsum, hl, hr⟩, hcuts⟩ := List.forall_mem_cons.1 h
    have ih := splitSearch_gives hcuts
    unfold splitSearch
    refine .checked (sum_ok hsum) (.attempt (both_gives hl hr) ?_)
    unfold Rule.firstSplit
    rw [List.findSome?_cons]
    cases Rule.pair l ⟨s.start, p⟩ r ⟨p + width, s.stop⟩ with
    | ok sides => exact .pure _
    | error f => exact ih

/-! ### Entries between brackets -/

/-- The entries from `start` to `stop`, cut at the first comma that leaves one before it, then at the next, and so
on. -/
def entriesFrom (src : Source) (entry : Span → Parser α) (stop : Nat) :
    (commas : List Nat) → (start : Nat) → Parser (List α)
  | [], start => (fun a => [a]) <$> entry ⟨start, stop⟩
  | comma :: commas, start => do
    match ← attempt (entry ⟨start, comma⟩) with
    | .ok a => do
      let next ← sum src comma 1
      (a :: ·) <$> entriesFrom src entry stop commas next
    | .error _ => entriesFrom src entry stop commas start

/-- The commas that could end the first entry, each with that entry. -/
def firstEntries (entry : Span → Parser α) (start : Nat) : List Nat → Parser (List (Nat × α))
  | [] => pure []
  | comma :: commas => do
    let first ← attempt (entry ⟨start, comma⟩)
    let more ← firstEntries entry start commas
    match first with
    | .ok a => pure ((comma, a) :: more)
    | .error _ => pure more

/-- One entry, or several with commas between them. -/
def separated (src : Source) (entry : Span → Parser α) (position : Nat) (inner : Span) : Parser (List α) := do
  let commas ← findAll src inner [',']
  if commas.isEmpty then (fun a => [a]) <$> entry inner
  else do
    match ← firstEntries entry inner.start commas with
    | [] => fail "multi-select" .noFirstEntry inner.start
    | [(comma, a)] => do
      let next ← sum src comma 1
      match ← attempt (entriesFrom src entry inner.stop (commas.filter (comma < ·)) next) with
      | .ok as => pure (a :: as)
      | .error _ => fail "multi-select" .ambiguousSeparation position
    | _ => fail "multi-select" .ambiguousSeparation position

/-- One or more entries between an opening and a closing character. -/
def multiSelect (src : Source) (opening closing : Char) (entry : Span → Parser α) (s : Span) : Parser (List α) := do
  within src s
  if s.stop ≤ s.start then fail "multi-select" .emptyRange s.start
  else do
    let t ← trim src s
    if src.first t ≠ some opening then fail "multi-select" (.missingChar opening) t.start
    else do
      let length ← difference t.stop t.start
      let final ← last src t
      if length < 2 ∨ final ≠ some closing then do
        let position ← difference t.stop 1
        fail "multi-select" (.missingChar closing) position
      else do
        let start ← sum src t.start 1
        let stop ← difference t.stop 1
        separated src entry t.start ⟨start, stop⟩

section Entries

variable {entry : Span → Parser α} {rule : Rule α}

/-- The commas stand in order, so what stands between two of them is a range of the text. -/
theorem entriesFrom_gives (hentry : Safe src depth bound entry rule) {stop : Nat} (hstop : stop ≤ src.size) :
    ∀ {commas : List Nat} {start : Nat}, commas.Pairwise (· < ·) → (∀ c ∈ commas, start ≤ c ∧ c < stop) →
      start ≤ stop → stop ≤ start + bound →
        Gives depth (entriesFrom src entry stop commas start) (Rule.entriesFrom rule stop commas start)
  | [], start, _, _, hle, hbound => by
    have hlast := hentry.range hle hstop hbound
    have hsingle : Rule.entriesFrom rule stop [] start = (rule ⟨start, stop⟩).map fun a => [a] := by
      unfold Rule.entriesFrom
      cases rule ⟨start, stop⟩ <;> rfl
    rw [hsingle]
    exact hlast.map _
  | comma :: commas, start, hsorted, hcommas, hle, hbound => by
    obtain ⟨hlater, hsorted⟩ := List.pairwise_cons.1 hsorted
    obtain ⟨⟨hstart, hlt⟩, hcommas⟩ := List.forall_mem_cons.1 hcommas
    have hfirst := hentry.range hstart (by omega) (by omega)
    unfold entriesFrom Rule.entriesFrom
    refine .attempt hfirst ?_
    cases rule ⟨start, comma⟩ with
    | ok a =>
      have hrest := entriesFrom_gives hentry hstop hsorted (fun c hc => ⟨hlater c hc, (hcommas c hc).2⟩) hlt (by omega)
      refine .checked (sum_ok (by omega)) ?_
      have hcons := hrest.map (a :: ·)
      cases hr : Rule.entriesFrom rule stop commas (comma + 1) with
      | ok as =>
        rw [hr] at hcons
        exact hcons
      | error f =>
        rw [hr] at hcons
        exact hcons
    | error f => exact entriesFrom_gives hentry hstop hsorted hcommas hle hbound

theorem firstEntries_gives (hentry : Safe src depth bound entry rule) {start : Nat} :
    ∀ {commas : List Nat}, (∀ c ∈ commas, start ≤ c ∧ c ≤ src.size ∧ c ≤ start + bound) →
      Gives depth (firstEntries entry start commas) (.ok (Rule.firstEntries rule start commas))
  | [], _ => .pure _
  | comma :: commas, h => by
    obtain ⟨⟨hstart, hsize, hbound⟩, hcommas⟩ := List.forall_mem_cons.1 h
    have hfirst := hentry.range hstart hsize hbound
    unfold firstEntries Rule.firstEntries
    refine .attempt hfirst ((firstEntries_gives hentry hcommas).andThen ?_)
    rw [List.filterMap_cons]
    cases rule ⟨start, comma⟩ with
    | ok a => exact .pure _
    | error f => exact .pure _

/-- Commas cut a range into ranges. -/
theorem separated_gives (hentry : Safe src depth bound entry rule) {inner : Span} (hinner : src.Holds inner)
    (hbound : inner.stop ≤ inner.start + bound) (position : Nat) :
    Gives depth (separated src entry position inner)
      (if (src.findAll inner [',']).isEmpty then (rule inner).map fun a => [a]
        else
          match Rule.firstEntries rule inner.start (src.findAll inner [',']) with
          | [] => Rule.fail "multi-select" .noFirstEntry inner.start
          | [(comma, a)] =>
            match Rule.entriesFrom rule inner.stop ((src.findAll inner [',']).filter (comma < ·)) (comma + 1) with
            | .ok as => .ok (a :: as)
            | .error _ => Rule.fail "multi-select" .ambiguousSeparation position
          | _ => Rule.fail "multi-select" .ambiguousSeparation position) := by
  have hsize := hinner.2
  have hcommas : ∀ c ∈ src.findAll inner [','], inner.start ≤ c ∧ c < inner.stop := fun c hc => Source.findAll_bounds hc
  unfold separated
  refine .checked (findAll_ok src inner _) (.ite (fun _ => (hentry inner hinner hbound).map _) fun _ => ?_)
  have hfirst : Gives depth (firstEntries entry inner.start (src.findAll inner [',']))
      (.ok (Rule.firstEntries rule inner.start (src.findAll inner [',']))) := by
    refine firstEntries_gives hentry fun c hc => ?_
    have hc := hcommas c hc
    omega
  refine hfirst.andThen ?_
  rcases h : Rule.firstEntries rule inner.start (src.findAll inner [',']) with _ | ⟨⟨comma, a⟩, _ | ⟨second, more⟩⟩
  · exact .fail ..
  · obtain ⟨hmem, -⟩ := Rule.mem_firstEntries.1 (h ▸ List.mem_singleton_self (comma, a))
    have hcomma := hcommas comma hmem
    -- the commas that are left stand after this one, so the next entry begins before each of them
    have hlater : ∀ c ∈ (src.findAll inner [',']).filter (comma < ·), comma + 1 ≤ c ∧ c < inner.stop := by
      intro c hc
      obtain ⟨hmem, hlater⟩ := List.mem_filter.1 hc
      exact ⟨of_decide_eq_true hlater, (hcommas c hmem).2⟩
    have hsorted := (src.findAll_sorted inner [',']).filter (comma < ·)
    refine .checked (sum_ok (by omega)) (.attempt (entriesFrom_gives hentry hsize hsorted hlater hcomma.2 (by omega)) ?_)
    dsimp only
    cases Rule.entriesFrom rule inner.stop ((src.findAll inner [',']).filter (comma < ·)) (comma + 1) with
    | ok as => exact .pure _
    | error f => exact .fail ..
  · exact .fail ..

/-- Entries between brackets are safe if an entry is, on what is shorter. -/
theorem multiSelect_safe {opening closing : Char} (hentry : Safe src depth bound entry rule) :
    Safe src depth (bound + 1) (multiSelect src opening closing entry) (Rule.entries src opening closing rule) := by
  intro s hs hbound
  unfold multiSelect Rule.entries
  refine .checked (within_ok hs) (.ite (fun _ => .fail ..) fun hne => ?_)
  have hlt : s.start < s.stop := Nat.lt_of_not_le hne
  refine .checked (trim_ok hlt hs.2) ?_
  obtain ⟨hstart, hpos, hstop⟩ := src.trim_bounds hlt
  have hsize := hs.2
  generalize src.trim s = t at *
  refine .ite (fun _ => .fail ..) fun _ => .checked (difference_ok (by omega)) (.checked (last_ok src t) ?_)
  refine .ite (fun _ => .checked (difference_ok (by omega)) (.fail ..)) fun hclosed => ?_
  have htwo : ¬ t.stop - t.start < 2 := fun h => hclosed (.inl h)
  have hinner : src.Holds ⟨t.start + 1, t.stop - 1⟩ := by
    constructor <;> simp only <;> omega
  refine .checked (sum_ok (by omega)) (.checked (difference_ok (by omega)) (separated_gives hentry hinner ?_ t.start))
  simp only
  omega

end Entries

end Checked

end PathQuery
