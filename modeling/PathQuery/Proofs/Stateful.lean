/-
# Computations with a state, step by step

A compiler carries a naming along, and a run that collects its steps carries these. What such a
computation gives is told from what its steps give, whatever the state that they start from: that
it has a property (`Ensures`), or that it is related to what a computation without a state gives,
which fails where this one does and with the same error (`Follows`). Of two computations with
states it is told what they give together when their states are related (`Together`).

Key definitions: `Ensures`, `Alike`, `Follows`, `Together`, `Naming.InStep`.
Key theorems: `Ensures.bind`, `Follows.bind`, `Together.bind`, `Together.inScope`.
-/
import PathQuery.Pipeline.Compile

namespace PathQuery

/-- A computation that carries a state along and may fail. -/
abbrev Stateful (ε σ α : Type) := ExceptT ε (StateM σ) α

variable {ε σ α β γ δ : Type}

namespace Stateful

variable {x : Stateful ε σ α} {s s' : σ}

/-- After a result comes the next step, with the state so far. -/
theorem bind_ok {a : α} (h : x s = (.ok a, s')) (f : α → Stateful ε σ β) : (x >>= f) s = f a s' := by
  show ExceptT.bindCont f (x s).1 (x s).2 = f a s'
  rw [h]
  rfl

/-- After an error comes nothing. -/
theorem bind_error {e : ε} (h : x s = (.error e, s')) (f : α → Stateful ε σ β) :
    (x >>= f) s = (.error e, s') := by
  show ExceptT.bindCont f (x s).1 (x s).2 = (.error e, s')
  rw [h]
  rfl

end Stateful

/-! ### Properties of what is given -/

/-- Whatever the state, what a computation gives has a property. -/
def Ensures (P : α → Prop) (x : Stateful ε σ α) : Prop :=
  ∀ s a, (x s).1 = .ok a → P a

namespace Ensures

variable {P : α → Prop} {Q : β → Prop}

theorem pure {a : α} (h : P a) : Ensures P (pure a : Stateful ε σ α) := fun _ _ ha => Except.ok.inj ha ▸ h

theorem throw (e : ε) : Ensures P (throw e : Stateful ε σ α) := fun _ _ h => nomatch h

theorem bind {x : Stateful ε σ α} {f : α → Stateful ε σ β} (hx : Ensures P x) (hf : ∀ a, P a → Ensures Q (f a)) :
    Ensures Q (x >>= f) := by
  intro s b h
  cases hs : x s with
  | mk result s' =>
    cases result with
    | error e =>
      rw [Stateful.bind_error hs] at h
      cases h
    | ok a =>
      rw [Stateful.bind_ok hs] at h
      exact hf a (hx s a (by rw [hs])) s' b h

theorem inScope {s : Scope} {body : Scope → Compiler α} (h : ∀ inner, Ensures P (body inner)) :
    Ensures P (inScope s body) := fun _ => h _ _

end Ensures

/-! ### Two computations that go alike -/

/-- Two results that are both errors, and the same, or both not, and related. -/
inductive Alike (R : α → β → Prop) : Except ε α → Except ε β → Prop
  | ok {a : α} {b : β} : R a b → Alike R (.ok a) (.ok b)
  | error {e : ε} : Alike R (.error e) (.error e)

namespace Alike

variable {R : α → β → Prop}

theorem ok_left {a : α} {y : Except ε β} (h : Alike R (.ok a) y) : ∃ b, y = .ok b ∧ R a b := by
  cases h with
  | ok h => exact ⟨_, rfl, h⟩

theorem ok_right {x : Except ε α} {b : β} (h : Alike R x (.ok b)) : ∃ a, x = .ok a ∧ R a b := by
  cases h with
  | ok h => exact ⟨_, rfl, h⟩

theorem imp {R' : α → β → Prop} (hR : ∀ a b, R a b → R' a b) {x : Except ε α} {y : Except ε β} (h : Alike R x y) :
    Alike R' x y := by
  cases h with
  | ok h => exact .ok (hR _ _ h)
  | error => exact .error

theorem eq {x y : Except ε α} (h : Alike Eq x y) : x = y := by
  cases h with
  | ok h => rw [h]
  | error => rfl

theorem bind {Q : γ → δ → Prop} {x : Except ε α} {y : Except ε β} {f : α → Except ε γ} {g : β → Except ε δ}
    (h : Alike R x y) (hf : ∀ a b, R a b → Alike Q (f a) (g b)) : Alike Q (x >>= f) (y >>= g) := by
  cases h with
  | ok h => exact hf _ _ h
  | error => exact .error

theorem map {Q : γ → δ → Prop} {x : Except ε α} {y : Except ε β} {f : α → γ} {g : β → δ} (h : Alike R x y)
    (hf : ∀ a b, R a b → Q (f a) (g b)) : Alike Q (f <$> x) (g <$> y) := by
  cases h with
  | ok h => exact .ok (hf _ _ h)
  | error => exact .error

end Alike

/-- Whatever the state, a computation gives what is related to what one without a state gives, or
has its error. -/
def Follows (R : α → β → Prop) (x : Stateful ε σ α) (y : Except ε β) : Prop :=
  ∀ s, Alike R (x s).1 y

namespace Follows

variable {R : α → β → Prop} {Q : γ → δ → Prop}

theorem pure {a : α} {b : β} (h : R a b) : Follows R (pure a : Stateful ε σ α) (pure b) := fun _ => .ok h

theorem throw (e : ε) : Follows R (throw e : Stateful ε σ α) (throw e) := fun _ => .error

theorem bind {x : Stateful ε σ α} {y : Except ε β} {f : α → Stateful ε σ γ} {g : β → Except ε δ}
    (hx : Follows R x y) (hf : ∀ a b, R a b → Follows Q (f a) (g b)) : Follows Q (x >>= f) (y >>= g) := by
  intro s
  have h := hx s
  cases hs : x s with
  | mk result s' =>
    rw [hs] at h
    cases h with
    | ok h =>
      rw [Stateful.bind_ok hs]
      exact hf _ _ h s'
    | error =>
      rw [Stateful.bind_error hs]
      exact .error

theorem bind_eq {x : Stateful ε σ α} {y : Except ε α} {f : α → Stateful ε σ γ} {g : α → Except ε δ}
    (hx : Follows Eq x y) (hf : ∀ a, Follows Q (f a) (g a)) : Follows Q (x >>= f) (y >>= g) :=
  hx.bind fun a _ h => h ▸ hf a

theorem map_eq {x : Stateful ε σ α} {y : Except ε α} (h : Follows Eq x y) (f : α → β) :
    Follows Eq (f <$> x) (f <$> y) := by
  rw [map_eq_pure_bind, map_eq_pure_bind]
  exact h.bind_eq fun a => .pure rfl

theorem inScope {s : Scope} {body : Scope → Compiler α} {y : Except CompileError β}
    (h : ∀ inner, Follows R (body inner) y) : Follows R (inScope s body) y := fun _ => h _ _

end Follows

/-! ### Two computations with states -/

/-- From states related by `Q`, two computations give what is related by `R` or have the same error,
and their states are related again in either case. -/
def Together {τ : Type} (Q : σ → τ → Prop) (R : α → β → Prop) (x : Stateful ε σ α) (y : Stateful ε τ β) : Prop :=
  ∀ s t, Q s t → Alike R (x s).1 (y t).1 ∧ Q (x s).2 (y t).2

/-- Namings related by `Q` name variables that are related by `N`, and go on being related. -/
structure Naming.InStep (N : String → String → Prop) (Q : Naming → Naming → Prop) : Prop where
  fresh : ∀ {n n'}, Q n n' → N n.fresh n'.fresh
  taken : ∀ {n n'}, Q n n' → Q n.taken n'.taken
  note : ∀ {n n'} (e e'), Q n n' → Q (n.note e) (n'.note e')

namespace Together

variable {τ : Type} {Q : σ → τ → Prop} {R : α → β → Prop} {R' : γ → δ → Prop}

theorem pure {a : α} {b : β} (h : R a b) :
    Together Q R (pure a : Stateful ε σ α) (pure b : Stateful ε τ β) := fun _ _ hQ => ⟨.ok h, hQ⟩

theorem throw (e : ε) : Together Q R (throw e : Stateful ε σ α) (throw e : Stateful ε τ β) :=
  fun _ _ hQ => ⟨.error, hQ⟩

theorem bind {x : Stateful ε σ α} {y : Stateful ε τ β} {f : α → Stateful ε σ γ} {g : β → Stateful ε τ δ}
    (hx : Together Q R x y) (hf : ∀ a b, R a b → Together Q R' (f a) (g b)) :
    Together Q R' (x >>= f) (y >>= g) := by
  intro s t hQ
  obtain ⟨halike, hQ⟩ := hx s t hQ
  rcases hs : x s with ⟨r, s'⟩
  rcases ht : y t with ⟨r', t'⟩
  rw [hs, ht] at halike hQ
  cases halike with
  | ok h =>
    rw [Stateful.bind_ok hs, Stateful.bind_ok ht]
    exact hf _ _ h s' t' hQ
  | error =>
    rw [Stateful.bind_error hs, Stateful.bind_error ht]
    exact ⟨.error, hQ⟩

theorem inScope {N : String → String → Prop} {Q : Naming → Naming → Prop} (hQ : Naming.InStep N Q) {s s' : Scope}
    {body : Scope → Compiler α} {body' : Scope → Compiler β}
    (h : ∀ inner inner' : Scope, N inner.subject inner'.subject → Together Q R (body inner) (body' inner')) :
    Together Q R (inScope s body) (inScope s' body') := by
  intro n n' hn
  obtain ⟨halike, hafter⟩ := h (s.push n.fresh) (s'.push n'.fresh) (hQ.fresh hn) _ _ (hQ.note _ _ (hQ.taken hn))
  exact ⟨halike, hQ.note _ _ hafter⟩

end Together

end PathQuery
