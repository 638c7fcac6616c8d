/-
# Functions after a dot

A function after a dot takes the value on the left for its subject, as far as the subject is a
path. The other argument, and inside the subject the other sides of operators and what `!` turns
round, start from the value of the scope as everywhere (`Expr.search_receiver`). So the call gives
what it gives on the value on the left by itself if nothing in it starts from the scope, and need
not otherwise (`Expr.search_receiver_outer`).

Key definitions: `Expr.isChain`, `Expr.searchFrom`, `Expr.ignoresScope`, `Expr.isFixed`, `GoesOnFrom`.
Key theorems: `Expr.meaning_ignores`, `Expr.search_receiver`.
-/
import PathQuery.Proofs.Compositional
import PathQuery.Proofs.Outcome

namespace PathQuery

/-! ### What does not start from the scope -/

namespace Meaning

/-- The value of the scope makes no difference. -/
def IgnoresScope (f : Meaning) : Prop := ∀ d d' c, f d c = f d' c

/-- Neither the value of the scope nor the current value makes a difference. -/
def IsFixed (f : Meaning) : Prop := ∀ d d' c c', f d c = f d' c'

variable {f g : Meaning}

theorem IsFixed.value (h : f.IsFixed) (d d' : Value) : f.value d = f.value d' := by
  rw [Meaning.value, Meaning.value, Meaning.result, Meaning.result, h d d' (.single d) (.single d')]

theorem IgnoresScope.andThen (h : f.IgnoresScope) (h' : g.IgnoresScope) : (f.andThen g).IgnoresScope := by
  intro d d' c
  rw [Meaning.andThen, Meaning.andThen, h d d']
  exact bind_congr fun c => h' d d' c

theorem IsFixed.andThen (h : f.IsFixed) (h' : g.IgnoresScope) : (f.andThen g).IsFixed := by
  intro d d' c c'
  rw [Meaning.andThen, Meaning.andThen, h d d' c c']
  exact bind_congr fun c => h' d d' c

variable {k : Value → Except EvalError Value → Except EvalError Current}

theorem IgnoresScope.withRight (h : f.IgnoresScope) (h' : g.IsFixed) : (withRight k f g).IgnoresScope := by
  intro d d' c
  rw [Meaning.withRight, Meaning.withRight, h d d', h'.value d d']

theorem IsFixed.withRight (h : f.IsFixed) (h' : g.IsFixed) : (withRight k f g).IsFixed := by
  intro d d' c c'
  rw [Meaning.withRight, Meaning.withRight, h d d' c c', h'.value d d']

theorem IsFixed.not (h : f.IsFixed) : (not f).IsFixed := by
  intro d d' _ _
  rw [Meaning.not, Meaning.not, h.value d d']

end Meaning

mutual

/-- Whether an expression only goes on from the current value. -/
def Expr.ignoresScope : Expr → Bool
  | .selector s => s.ignoresScope
  | .dot left s => left.ignoresScope && s.ignoresScope
  | .index _ => true
  | .indexOf left _ => left.ignoresScope
  | .binary _ left right => left.ignoresScope && right.isFixed
  | .not e => e.isFixed
  | .paren e => e.ignoresScope
  | .literal _ | .raw _ => true
  | .current => false

/-- Whether an expression gives one result everywhere, as what starts from a literal does. -/
def Expr.isFixed : Expr → Bool
  | .selector s => s.isFixed
  | .dot left s => left.isFixed && s.ignoresScope
  | .index _ => false
  | .indexOf left _ => left.isFixed
  | .binary _ left right => left.isFixed && right.isFixed
  | .not e => e.isFixed
  | .paren e => e.isFixed
  | .literal _ | .raw _ => true
  | .current => false

/-- The same for a selector. The filters and the lists in it have scopes of their own. -/
def Selector.ignoresScope : Selector → Bool
  | .identifier _ | .star | .list _ => true
  | .call _ [.value e] => e.ignoresScope
  | .call _ [.value e, .value e'] => e.ignoresScope && e'.isFixed
  | _ => false

/-- The same for a selector. -/
def Selector.isFixed : Selector → Bool
  | .call _ [.value e] => e.isFixed
  | .call _ [.value e, .value e'] => e.isFixed && e'.isFixed
  | _ => false

end

/-- An operator with two sides that means something only asks for its right side on the scope. -/
theorem Expr.meaning_binary {op : Operator} {left right : Expr} {f : Meaning}
    (h : (Expr.binary op left right).meaning = .ok f) :
    ∃ k g g', left.meaning = .ok g ∧ right.meaning = .ok g' ∧ f = .withRight k g g' := by
  cases op with
  | pipe => cases h
  | compare c | or | and =>
    rw [Expr.meaning] at h
    obtain ⟨g, hg, h⟩ := bind_eq_ok.1 h
    obtain ⟨g', hg', h⟩ := bind_eq_ok.1 h
    exact ⟨_, g, g', hg, hg', (Except.ok.inj h).symm⟩

/-- The meaning of a call. -/
theorem Selector.meaning_call {name : String} {arguments : List Argument} {f : Meaning}
    (h : (Selector.call name arguments).meaning = .ok f) :
    (∃ e g, arguments = [.value e] ∧ e.meaning = .ok g ∧ f = g.andThen (.step .length)) ∨
    ∃ e e' g g', arguments = [.value e, .value e'] ∧ e.meaning = .ok g ∧ e'.meaning = .ok g' ∧ f = .contains g g' := by
  unfold Selector.meaning at h
  split at h
  · split at h
    · obtain ⟨g, hg, h⟩ := bind_eq_ok.1 h
      exact .inl ⟨_, g, rfl, hg, (Except.ok.inj h).symm⟩
    · cases h
  · split at h
    · split at h
      · obtain ⟨g, hg, h⟩ := bind_eq_ok.1 h
        obtain ⟨g', hg', h⟩ := bind_eq_ok.1 h
        exact .inr ⟨_, _, g, g', rfl, hg, hg', (Except.ok.inj h).symm⟩
      · cases h
    · cases h

theorem Bracket.meaning_ignoresScope {b : Bracket} {f : Meaning} (h : b.meaning = .ok f) : f.IgnoresScope := by
  cases b with
  | flatten | number _ | star => cases h; exact fun _ _ _ => rfl
  | slice _ => cases h
  | filter e =>
    rw [Bracket.meaning] at h
    obtain ⟨g, hg, h⟩ := bind_eq_ok.1 h
    cases h
    exact fun _ _ _ => rfl

mutual

/-- What an expression means ignores what the expression ignores. -/
theorem Expr.meaning_ignores : ∀ (e : Expr) {f : Meaning}, e.meaning = .ok f →
    (e.ignoresScope = true → f.IgnoresScope) ∧ (e.isFixed = true → f.IsFixed)
  | .selector s, f, h => by
    rw [Expr.meaning] at h
    rw [Expr.ignoresScope, Expr.isFixed]
    exact s.meaning_ignores h
  | .dot left s, f, h => by
    rw [Expr.meaning] at h
    obtain ⟨g, hg, h⟩ := bind_eq_ok.1 h
    obtain ⟨k, hk, h⟩ := bind_eq_ok.1 h
    cases h
    simp only [Expr.ignoresScope, Expr.isFixed, Bool.and_eq_true]
    have hleft := left.meaning_ignores hg
    have hs := s.meaning_ignores hk
    exact ⟨fun h => (hleft.1 h.1).andThen (hs.1 h.2), fun h => (hleft.2 h.1).andThen (hs.1 h.2)⟩
  | .index b, f, h => by
    rw [Expr.meaning] at h
    exact ⟨fun _ => Bracket.meaning_ignoresScope h, nofun⟩
  | .indexOf left b, f, h => by
    rw [Expr.meaning] at h
    obtain ⟨g, hg, h⟩ := bind_eq_ok.1 h
    obtain ⟨k, hk, h⟩ := bind_eq_ok.1 h
    cases h
    simp only [Expr.ignoresScope, Expr.isFixed]
    have hleft := left.meaning_ignores hg
    have hb := Bracket.meaning_ignoresScope hk
    exact ⟨fun h => (hleft.1 h).andThen hb, fun h => (hleft.2 h).andThen hb⟩
  | .binary op left right, f, h => by
    obtain ⟨k, g, g', hg, hg', rfl⟩ := Expr.meaning_binary h
    simp only [Expr.ignoresScope, Expr.isFixed, Bool.and_eq_true]
    have hleft := left.meaning_ignores hg
    have hright := right.meaning_ignores hg'
    exact ⟨fun h => (hleft.1 h.1).withRight (hright.2 h.2), fun h => (hleft.2 h.1).withRight (hright.2 h.2)⟩
  | .not e, f, h => by
    rw [Expr.meaning] at h
    obtain ⟨g, hg, h⟩ := bind_eq_ok.1 h
    cases h
    simp only [Expr.ignoresScope, Expr.isFixed]
    have he := (e.meaning_ignores hg).2
    exact ⟨fun h d d' c => (he h).not d d' c c, fun h => (he h).not⟩
  | .paren e, f, h => by
    rw [Expr.meaning] at h
    rw [Expr.ignoresScope, Expr.isFixed]
    exact e.meaning_ignores h
  | .literal _, f, h => by
    cases h
    exact ⟨fun _ _ _ _ => rfl, fun _ _ _ c c' => by cases c <;> cases c' <;> rfl⟩
  | .raw _, f, h => by
    cases h
    exact ⟨fun _ _ _ _ => rfl, fun _ _ _ c c' => by cases c <;> cases c' <;> rfl⟩
  | .current, f, h => nomatch h

/-- The same for a selector. -/
theorem Selector.meaning_ignores : ∀ (s : Selector) {f : Meaning}, s.meaning = .ok f →
    (s.ignoresScope = true → f.IgnoresScope) ∧ (s.isFixed = true → f.IsFixed)
  | .identifier _, f, h | .star, f, h => by
    cases h
    exact ⟨fun _ _ _ _ => rfl, nofun⟩
  | .list es, f, h => by
    rw [Selector.meaning] at h
    obtain ⟨fs, hfs, h⟩ := bind_eq_ok.1 h
    cases h
    exact ⟨fun _ _ _ _ => rfl, nofun⟩
  | .hash _, f, h => nomatch h
  | .call name arguments, f, h => by
    obtain ⟨e, g, rfl, hg, rfl⟩ | ⟨e, e', g, g', rfl, hg, hg', rfl⟩ := Selector.meaning_call h
    · have he := e.meaning_ignores hg
      have hstep : (Meaning.step .length).IgnoresScope := fun _ _ _ => rfl
      simp only [Selector.ignoresScope, Selector.isFixed]
      exact ⟨fun h => (he.1 h).andThen hstep, fun h => (he.2 h).andThen hstep⟩
    · have he := e.meaning_ignores hg
      have he' := e'.meaning_ignores hg'
      simp only [Selector.ignoresScope, Selector.isFixed, Bool.and_eq_true]
      exact ⟨fun h => (he.1 h.1).withRight (he'.2 h.2), fun h => (he.2 h.1).withRight (he'.2 h.2)⟩

end

/-! ### Searching from a value -/

/-- Identifiers with dots between them. -/
def Expr.isChain : Expr → Bool
  | .selector (.identifier _) => true
  | .dot left (.identifier _) => left.isChain
  | _ => false

/-- A chain takes a value to a value, whatever the scope. -/
theorem Expr.meaning_of_isChain : ∀ {l : Expr}, l.isChain = true →
    ∃ f : Meaning, l.meaning = .ok f ∧ ∀ v, ∃ w, ∀ d, f d (.single v) = .ok (.single w)
  | .selector (.identifier name), _ => ⟨_, rfl, fun v => ⟨v.member name, fun _ => rfl⟩⟩
  | .dot left (.identifier name), h => by
    obtain ⟨f, hf, hvalue⟩ := meaning_of_isChain (l := left) h
    refine ⟨f.andThen (.step (.field name)), by rw [Expr.meaning, hf]; rfl, fun v => ?_⟩
    obtain ⟨w, hw⟩ := hvalue v
    exact ⟨w.member name, fun d => by rw [Meaning.andThen, hw]; rfl⟩

/-- The result of the operations of an expression on a value, while the variable that its
pipeline reads stands for the document. -/
def Expr.searchFrom (stem subject : String) (e : Expr) (document v : Value) : Except Query.Error Value :=
  match (e.compile subject (.start stem)).1 with
  | .error error => .error (.pipeline (.compile error))
  | .ok p =>
    Except.mapError .eval do
      let c ← Operation.applyAll quiet [(subject, document)] p.operations (.single v)
      return c.value

section

variable {stem subject : String} {e : Expr} {d v : Value} {f : Meaning}

/-- Searching from a value gives what the expression means for it. -/
theorem Expr.searchFrom_eq_meaning : e.searchFrom stem subject d v =
    match e.meaning with
    | .error error => .error (.pipeline (.compile error))
    | .ok f => (f.result d v).mapError .eval := by
  have hc := e.compile_meaning subject (.start stem)
  rw [Expr.searchFrom]
  generalize (e.compile subject (.start stem)).1 = r at hc ⊢
  generalize e.meaning = m at hc ⊢
  cases hc with
  | error => rfl
  | ok h =>
    dsimp only
    rw [h.2 [(subject, d)] d (.single v) (if_pos rfl), Meaning.result]

theorem Expr.searchFrom_of_meaning (h : e.meaning = .ok f) :
    e.searchFrom stem subject d v = (f.result d v).mapError .eval := by
  rw [Expr.searchFrom_eq_meaning, h]

end

/-- What stands after a dot goes on from a value, while the variable in scope stays with the
document. -/
structure GoesOnFrom (stem subject : String) (l x y : Expr) (d v : Value) : Prop where
  left : l.search stem subject d = .ok v
  right : ∀ r : Selector, (Expr.dot l r).search stem subject d = (Expr.selector r).searchFrom stem subject d v
  /-- The subject of a function goes on from the value. -/
  length : (Expr.dot l (.call "length" [.value x])).search stem subject d = do
    let s ← x.searchFrom stem subject d v
    s.length.mapError fun fault => .eval (.type fault)
  /-- The other argument starts from the document. -/
  contains : (Expr.dot l (.call "contains" [.value x, .value y])).search stem subject d = do
    let s ← x.searchFrom stem subject d v
    let w ← y.search stem subject d
    (s.contains w).mapError fun fault => .eval (.type fault)
  /-- What ignores the scope gives what it gives on the value by itself. -/
  alone : ∀ r : Selector, r.ignoresScope = true →
    (Expr.dot l r).search stem subject d = (Expr.selector r).search stem subject v

/-- **After a chain of identifiers and a dot, a function goes on from what the chain gives.** -/
theorem Expr.search_receiver (stem subject : String) {l x y : Expr} (hl : l.isChain = true)
    (hx : x.HasPipeline stem subject) (hy : y.HasPipeline stem subject) (d : Value) :
    ∃ v, GoesOnFrom stem subject l x y d v := by
  obtain ⟨f, hf, hvalue⟩ := Expr.meaning_of_isChain hl
  obtain ⟨v, hv⟩ := hvalue d
  obtain ⟨g, hg⟩ := hx.meaning
  obtain ⟨g', hg'⟩ := hy.meaning
  have hdot (r : Selector) :
      (Expr.dot l r).search stem subject d = (Expr.selector r).searchFrom stem subject d v := by
    rw [search_eq_meaning, searchFrom_eq_meaning, Expr.meaning, Expr.meaning, hf]
    cases r.meaning with
    | error error => rfl
    | ok k =>
      show ((f.andThen k).value d).mapError Query.Error.eval = (k.result d v).mapError Query.Error.eval
      rw [Meaning.value, Meaning.result, Meaning.andThen, hv d, Meaning.result]
      rfl
  refine ⟨v, ?_⟩
  constructor
  case right => exact hdot
  case left =>
    rw [search_of_meaning hf, Meaning.value, Meaning.result, hv d]
    rfl
  case length =>
    rw [hdot, searchFrom_of_meaning (meaning_length hg), searchFrom_of_meaning hg, Meaning.result_length, mapError_bind]
    refine bind_congr fun s => ?_
    cases s.length <;> rfl
  case contains =>
    rw [hdot, searchFrom_of_meaning (meaning_contains hg hg'), searchFrom_of_meaning hg, search_of_meaning hg',
      Meaning.result_contains, mapError_bind]
    refine bind_congr fun s => ?_
    rw [mapError_bind]
    refine bind_congr fun w => ?_
    cases s.contains w <;> rfl
  case alone =>
    intro r hr
    rw [hdot, searchFrom_eq_meaning, search_eq_meaning, Expr.meaning]
    cases hk : r.meaning with
    | error error => rfl
    | ok k =>
      dsimp only
      rw [Meaning.value, Meaning.result, Meaning.result, (r.meaning_ignores hk).1 hr d v]

/-- A subject with a right side of its own: the side is found in the document, not in `a.b`. -/
theorem Expr.search_receiver_or :
    let l : Expr := .dot (.selector (.identifier "a")) (.identifier "b")
    let x : Expr := .binary .or (.selector (.identifier "p")) (.selector (.identifier "q"))
    let y : Expr := .raw "k"
    let d : Value := .object [("a", .object [("b", .object [("q", .null)])]), ("q", .array [.string "k"])]
    l.isChain = true ∧ x.HasPipeline "x" Query.input ∧ y.HasPipeline "x" Query.input ∧
      ∃ v, GoesOnFrom "x" Query.input l x y d v := by
  intro l x y d
  have hl : l.isChain = true := rfl
  have hx : x.HasPipeline "x" Query.input := ⟨_, rfl⟩
  have hy : y.HasPipeline "x" Query.input := ⟨_, rfl⟩
  exact ⟨hl, hx, hy, Expr.search_receiver "x" Query.input hl hx hy d⟩

/-- In `a.contains(b, c)` the `c` is that of the document, so the call need not give what
`contains(b, c)` gives on the value of `a`. -/
theorem Expr.search_receiver_outer :
    let a : Expr := .selector (.identifier "a")
    let call : Selector := .call "contains" [.value (.selector (.identifier "b")), .value (.selector (.identifier "c"))]
    let v : Value := .object [("b", .array [Value.integer 1]), ("c", Value.integer 1)]
    let d : Value := .object [("a", v)]
    a.search "x" Query.input d = .ok v ∧
      (Expr.dot a call).search "x" Query.input d = .ok (.boolean false) ∧
      (Expr.selector call).search "x" Query.input v = .ok (.boolean true) ∧
      (Expr.dot a call).search "x" Query.input d ≠ (Expr.selector call).search "x" Query.input v := by
  intro a call v d
  have hd : (Expr.dot a call).search "x" Query.input d = .ok (.boolean false) := rfl
  have hv : (Expr.selector call).search "x" Query.input v = .ok (.boolean true) := rfl
  refine ⟨rfl, hd, hv, ?_⟩
  rw [hd, hv]
  exact nofun

end PathQuery
