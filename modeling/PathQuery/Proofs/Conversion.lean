/-
# Values and what a JSON text says

A value goes over into what a JSON text says, and back. Integers of 64 bits come back as they
are, and so do finite doubles. A double that is not finite becomes null, which is no number: so
a value with one in it, at whatever depth, does not come back the same, and one with none comes
back as it is, with the names of its objects in their order (`Value.ofJson_toJson_same_iff`).

Key definitions: `Value.Finite`, `Value.FloatFree`.
Key theorems: `Value.ofJson_toJson`, `Value.ofJson_toJson_same_iff`.
-/
import PathQuery.Proofs.Shape
import PathQuery.Value

namespace PathQuery

namespace Number

/-- An integer or a double that is a number. -/
def IsFinite : Number → Prop
  | .integer _ => True
  | .float x => x.isFinite = true

/-- An integer. -/
def IsInteger : Number → Prop
  | .integer _ => True
  | .float _ => False

instance : DecidablePred IsFinite
  | .integer _ => .isTrue trivial
  | .float _ => inferInstanceAs (Decidable (_ = true))

instance : DecidablePred IsInteger
  | .integer _ => .isTrue trivial
  | .float _ => .isFalse id

theorem IsInteger.isFinite : ∀ {n : Number}, n.IsInteger → n.IsFinite
  | .integer _, _ => trivial

open Float.Model in
/-- A double that is a number is equal to itself. -/
theorem beq_self_of_isFinite {x : Float} (h : x.isFinite = true) : (x == x) = true := by
  have hcompare : ∀ u : UnpackedFloat, u.isFinite = true → u.compare u = some .eq
    | .zero _, _ => rfl
    | .finite .positive m e _, _ => by
      show some ((compare e e).then (compare m m)) = some .eq
      rw [Int.compare_eq_eq.mpr rfl, Nat.compare_eq_eq.mpr rfl]
      rfl
    | .finite .negative m e _, _ => by
      show some ((compare e e).then (compare m m)).swap = some .eq
      rw [Int.compare_eq_eq.mpr rfl, Nat.compare_eq_eq.mpr rfl]
      rfl
  show (x.toModel.unpack.compare x.toModel.unpack == some .eq) = true
  rw [hcompare _ h]
  rfl

/-- A finite number is the same as itself. -/
theorem same_self : ∀ {n : Number}, n.IsFinite → n.same n = true
  | .integer n, _ => beq_self_eq_true n
  | .float _, h => beq_self_of_isFinite h

end Number

namespace Value

open Document

/-- No double in a value is infinite or no number. -/
def Finite (v : Value) : Prop := v.Every Number.IsFinite

/-- No number in a value is a double. -/
def FloatFree (v : Value) : Prop := v.Every Number.IsInteger

instance : DecidablePred Finite := fun v => inferInstanceAs (Decidable (v.Every Number.IsFinite))

instance : DecidablePred FloatFree := fun v => inferInstanceAs (Decidable (v.Every Number.IsInteger))

theorem FloatFree.finite {v : Value} (h : v.FloatFree) : v.Finite :=
  Every.imp (fun _ => Number.IsInteger.isFinite) h

/-! ### There and back -/

theorem ofJson_toJsonNumber : ∀ {n : Number}, n.IsFinite → ofJson (toJsonNumber n) = .number n
  | .integer n, _ => by
    have hrange : Int64.minValue.toInt ≤ n.toInt ∧ n.toInt ≤ Int64.maxValue.toInt :=
      ⟨n.minValue_le_toInt, n.toInt_le⟩
    show ofJsonNumber (.integer n.toInt) = _
    rw [ofJsonNumber, if_pos hrange, Int64.ofInt_toInt]
    rfl
  | .float x, h => by
    unfold Number.IsFinite at h
    rw [toJsonNumber, if_pos h]
    rfl

/-- A number that comes back the same is finite. -/
theorem isFinite_of_same : ∀ {n : Number}, Value.same (ofJson (toJsonNumber n)) (.number n) = true → n.IsFinite
  | .integer _, _ => trivial
  | .float x, h => by
    by_contra hx
    unfold Number.IsFinite at hx
    rw [toJsonNumber, if_neg hx] at h
    exact Bool.false_ne_true h

theorem ofJson_toJson_eq (v : Value) : ofJson v.toJson = mapNumbers (fun n => ofJson (toJsonNumber n)) v :=
  mapNumbers_comp toJsonNumber ofJsonNumber v

/-- **A value without infinities and the like comes back as it is.** -/
theorem ofJson_toJson {v : Value} (h : v.Finite) : ofJson v.toJson = v := by
  rw [ofJson_toJson_eq]
  exact mapNumbers_eq_self (Every.imp (fun _ => ofJson_toJsonNumber) h)

/-- **Exactly the finite values come back the same**, and these as they are. -/
theorem ofJson_toJson_same_iff {v : Value} (h : v.Distinct) :
    (Value.same (ofJson v.toJson) v = true ↔ v.Finite) ∧ (v.Finite → ofJson v.toJson = v) := by
  refine ⟨⟨fun hsame => ?_, fun hfinite => ?_⟩, ofJson_toJson⟩
  · rw [Value.same, ofJson_toJson_eq] at hsame
    exact Every.imp (fun _ => isFinite_of_same) (every_of_agree h hsame)
  · rw [ofJson_toJson hfinite]
    exact agree_self h (Every.imp (fun _ => Number.same_self) hfinite)

/-- An object that keeps its names in order, and one with an infinity inside an array. -/
theorem ofJson_toJson_same_iff_nested :
    let kept : Value := .object [("z", float 2.5), ("a", .array [integer 1, .object []])]
    let lost : Value := .object [("z", .array [integer 1, float (Float.ofBits 0x7ff0000000000000)])]
    (kept.Distinct ∧ Value.same (ofJson kept.toJson) kept = true ∧ ofJson kept.toJson = kept) ∧
      lost.Distinct ∧ Value.same (ofJson lost.toJson) lost = false := by
  intro kept lost
  have hkept : kept.Distinct := by decide
  have hlost : lost.Distinct := by decide
  have hfinite : kept.Finite := by decide
  have hinfinite : ¬lost.Finite := by decide
  refine ⟨⟨hkept, (ofJson_toJson_same_iff hkept).1.mpr hfinite, (ofJson_toJson_same_iff hkept).2 hfinite⟩,
    hlost, ?_⟩
  exact Bool.eq_false_iff.mpr fun h => hinfinite ((ofJson_toJson_same_iff hlost).1.mp h)

end Value

end PathQuery
