/-
# Results and errors that come out of steps

A computation that may fail gives a result only if each of its steps does, and the errors
that it has are those of its steps. So what holds of every error of the steps holds of every
error of the whole (`FailsOnly`).

Key definition: `FailsOnly`.
Key theorems: `bind_eq_ok`, `map_eq_ok`, `guard_eq_ok`, `demand_eq_ok`, `FailsOnly.bind`.
-/

namespace PathQuery

variable {ε α β : Type}

/-- Two steps give a result if the first gives one from which the second does. -/
theorem bind_eq_ok {r : Except ε α} {f : α → Except ε β} {b : β} :
    r >>= f = .ok b ↔ ∃ a, r = .ok a ∧ f a = .ok b := by
  cases r with
  | error e => exact ⟨nofun, nofun⟩
  | ok a => exact ⟨fun h => ⟨a, rfl, h⟩, fun ⟨_, ha, h⟩ => Except.ok.inj ha ▸ h⟩

theorem map_eq_ok {r : Except ε α} {f : α → β} {b : β} :
    r.map f = .ok b ↔ ∃ a, r = .ok a ∧ f a = b := by
  cases r with
  | error e => exact ⟨nofun, nofun⟩
  | ok a => exact ⟨fun h => ⟨a, rfl, Except.ok.inj h⟩, fun ⟨_, ha, h⟩ => by cases ha; rw [← h]; rfl⟩

/-- Another error leaves a result as it is. -/
theorem mapError_eq_ok {r : Except ε α} {f : ε → β} {a : α} : r.mapError f = .ok a ↔ r = .ok a := by
  cases r with
  | error e => exact ⟨nofun, nofun⟩
  | ok b => exact ⟨fun h => congrArg _ (Except.ok.inj h), fun h => congrArg _ (Except.ok.inj h)⟩

/-- A step behind a guard gives a result if the guard does not hold it up. -/
theorem guard_eq_ok {c : Prop} [Decidable c] {e : ε} {r : Except ε α} {a : α} :
    (if c then .error e else r) = .ok a ↔ ¬c ∧ r = .ok a := by
  by_cases hc : c
  · rw [if_pos hc]
    exact ⟨nofun, fun h => absurd hc h.1⟩
  · rw [if_neg hc]
    exact ⟨fun h => ⟨hc, h⟩, And.right⟩

/-- A step that demands an equality gives a result only under it. -/
theorem demand_eq_ok {x y : β} [Decidable (x ≠ y)] {e : ε} {r : Except ε α} {a : α} :
    (if x ≠ y then .error e else r) = .ok a ↔ x = y ∧ r = .ok a := by
  rw [guard_eq_ok, Classical.not_not]

/-! ### Errors -/

/-- Every error that a computation has is as `P` says. -/
def FailsOnly (P : ε → Prop) (r : Except ε α) : Prop := ∀ error, r = .error error → P error

namespace FailsOnly

variable {P Q : ε → Prop} {r : Except ε α}

theorem ok (a : α) : FailsOnly P (.ok a) := fun _ h => nomatch h

theorem error {e : ε} (h : P e) : FailsOnly P (.error e : Except ε α) := fun _ he => Except.error.inj he ▸ h

theorem mono (hr : FailsOnly P r) (h : ∀ error, P error → Q error) : FailsOnly Q r := fun e he => h e (hr e he)

theorem map (hr : FailsOnly P r) (f : α → β) : FailsOnly P (r.map f) := by
  cases r with
  | ok a => exact ok _
  | error e => exact error (hr e rfl)

theorem bind {f : α → Except ε β} (hr : FailsOnly P r) (hf : ∀ a, FailsOnly P (f a)) : FailsOnly P (r >>= f) := by
  cases r with
  | ok a => exact hf a
  | error e => exact error (hr e rfl)

theorem ite {c : Prop} [Decidable c] {a b : Except ε α} (ha : c → FailsOnly P a) (hb : ¬c → FailsOnly P b) :
    FailsOnly P (if c then a else b) := by
  by_cases hc : c
  · rw [if_pos hc]
    exact ha hc
  · rw [if_neg hc]
    exact hb hc

end FailsOnly

end PathQuery
