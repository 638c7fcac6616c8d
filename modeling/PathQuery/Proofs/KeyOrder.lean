/-
# Documents up to the order of names

Two documents may differ only in the order in which their objects, at whatever depth, give their
names (`Document.Reordered`). An object is then the other one with its fields in another order
and their values reordered (`Fields.Match`). If no object has a name twice, this is the same as
to have as many fields and to find each name in the other with a value that matches
(`Fields.match_iff_lookup`): each field finds one of its own, so none is left over.

So the equality of values, which looks up each name of the left in the right and counts, is an
equivalence where numbers are equal only to themselves. It holds exactly of values that differ
in the order of names, and neither it nor a search for a value in an array depends on that order
(`Value.equal_iff_reordered`, `Value.equal_congr`).

Key definitions: `Fields.Match`, `Document.Reordered`, `Value.Exact`.
Key theorems: `Fields.match_iff_lookup`, `Document.agree_iff_reordered`, `Document.agree_congr`,
`Value.equal_equivalence`.
-/
import Mathlib.Data.List.Perm.Basic
import PathQuery.Proofs.Conversion
import PathQuery.Value.Operations

namespace PathQuery

/-- A relation on the members of two lists that follows from another one there. -/
theorem forall₂_of_mem {α β : Type} {R S : α → β → Prop} {as : List α} {bs : List β}
    (h : ∀ a ∈ as, ∀ b ∈ bs, R a b → S a b) (hR : List.Forall₂ R as bs) : List.Forall₂ S as bs := by
  induction hR with
  | nil => exact .nil
  | cons hab _ ih =>
    have hrest := ih fun a ha b hb => h a (List.mem_cons_of_mem _ ha) b (List.mem_cons_of_mem _ hb)
    exact .cons (h _ List.mem_cons_self _ List.mem_cons_self hab) hrest

/-- A member of the first of two related lists has one in the second that it is related to. -/
theorem exists_of_forall₂ {α β : Type} {R : α → β → Prop} {as : List α} {bs : List β}
    (h : List.Forall₂ R as bs) {a : α} (ha : a ∈ as) : ∃ b ∈ bs, R a b := by
  induction h with
  | nil => cases ha
  | @cons a' b' _ _ hab _ ih =>
    rcases List.mem_cons.1 ha with rfl | ha
    · exact ⟨b', List.mem_cons_self, hab⟩
    · obtain ⟨b, hb, h⟩ := ih ha
      exact ⟨b, List.mem_cons_of_mem _ hb, h⟩

/-- Two relations in turn, place by place. -/
theorem forall₂_comp {α β γ : Type} {R : α → β → Prop} {S : β → γ → Prop} {as : List α} {bs : List β}
    {cs : List γ} (hR : List.Forall₂ R as bs) (hS : List.Forall₂ S bs cs) :
    List.Forall₂ (fun a c => ∃ b ∈ bs, R a b ∧ S b c) as cs := by
  induction hR generalizing cs with
  | nil =>
    cases hS
    exact .nil
  | @cons a b _ _ hab _ ih =>
    obtain ⟨c, cs, hbc, hcs, rfl⟩ := List.forall₂_cons_left_iff.1 hS
    refine .cons ⟨b, List.mem_cons_self, hab, hbc⟩ ((ih hcs).imp ?_)
    rintro a' c' ⟨b', hb', h⟩
    exact ⟨b', List.mem_cons_of_mem _ hb', h⟩

/-! ### Fields in another order -/

namespace Fields

variable {α β γ : Type} {R : α → β → Prop}

/-- Two fields of one name with values that are related. -/
inductive Rel (R : α → β → Prop) : String × α → String × β → Prop
  | mk {k : String} {a : α} {b : β} : R a b → Rel R (k, a) (k, b)

theorem Rel.name {f : String × α} {g : String × β} (h : Rel R f g) : f.1 = g.1 := by
  cases h
  rfl

theorem Rel.value {f : String × α} {g : String × β} (h : Rel R f g) : R f.2 g.2 := by
  cases h with
  | mk h => exact h

theorem Rel.of_value {f : String × α} {g : String × β} (hk : f.1 = g.1) (h : R f.2 g.2) : Rel R f g := by
  obtain ⟨k, a⟩ := f
  obtain ⟨l, b⟩ := g
  cases hk
  exact .mk h

/-- The fields of one object are those of another in some order, with values that are related. -/
def Match (R : α → β → Prop) (as : List (String × α)) (cs : List (String × β)) : Prop :=
  ∃ bs, List.Forall₂ (Rel R) as bs ∧ bs.Perm cs

namespace Match

variable {as : List (String × α)} {bs : List (String × β)} {cs : List (String × γ)}

theorem length_eq (h : Match R as bs) : as.length = bs.length := by
  obtain ⟨_, hrel, hperm⟩ := h
  rw [hrel.length_eq, hperm.length_eq]

/-- The names are the same in some order. -/
theorem names (h : Match R as bs) : (as.map Prod.fst).Perm (bs.map Prod.fst) := by
  obtain ⟨mid, hrel, hperm⟩ := h
  have hnames : as.map Prod.fst = mid.map Prod.fst := by
    clear hperm
    induction hrel with
    | nil => rfl
    | cons hfg _ ih => rw [List.map_cons, List.map_cons, hfg.name, ih]
  rw [hnames]
  exact hperm.map Prod.fst

theorem exists_left (h : Match R as bs) {f : String × α} (hf : f ∈ as) : ∃ g ∈ bs, Rel R f g := by
  obtain ⟨mid, hrel, hperm⟩ := h
  obtain ⟨g, hg, hfg⟩ := exists_of_forall₂ hrel hf
  exact ⟨g, hperm.subset hg, hfg⟩

theorem exists_right (h : Match R as bs) {g : String × β} (hg : g ∈ bs) : ∃ f ∈ as, Rel R f g := by
  obtain ⟨mid, hrel, hperm⟩ := h
  obtain ⟨f, hf, hfg⟩ := exists_of_forall₂ (R := flip (Rel R)) hrel.flip (hperm.mem_iff.2 hg)
  exact ⟨f, hf, hfg⟩

theorem imp {S : α → β → Prop} (h : Match R as bs) (hS : ∀ f ∈ as, ∀ g ∈ bs, R f.2 g.2 → S f.2 g.2) :
    Match S as bs := by
  obtain ⟨mid, hrel, hperm⟩ := h
  refine ⟨mid, forall₂_of_mem (fun f hf g hg hfg => ?_) hrel, hperm⟩
  exact .of_value hfg.name (hS f hf g (hperm.subset hg) hfg.value)

/-- The order of the first may be taken back instead of that of the second. -/
theorem symm (h : Match R as bs) : Match (flip R) bs as := by
  obtain ⟨mid, hrel, hperm⟩ := h
  have hback : List.Forall₂ (Rel (flip R)) mid as := by
    refine List.Forall₂.flip (hrel.imp fun f g hfg => ?_)
    exact Rel.of_value hfg.name.symm hfg.value
  exact List.perm_comp_forall₂ hperm.symm hback

theorem comp {S : β → γ → Prop} (h : Match R as bs) (h' : Match S bs cs) :
    Match (fun a c => ∃ g ∈ bs, R a g.2 ∧ S g.2 c) as cs := by
  obtain ⟨mid, hrel, hperm⟩ := h
  obtain ⟨mid', hrel', hperm'⟩ := h'
  obtain ⟨mid'', hrel'', hperm''⟩ := List.perm_comp_forall₂ hperm hrel'
  refine ⟨mid'', (forall₂_comp hrel hrel'').imp ?_, hperm''.trans hperm'⟩
  rintro f e ⟨g, hg, hfg, hge⟩
  exact .of_value (hfg.name.trans hge.name) ⟨g, hperm.subset hg, hfg.value, hge.value⟩

theorem refl {R : α → α → Prop} (h : ∀ f ∈ as, R f.2 f.2) : Match R as as :=
  ⟨as, List.forall₂_same.2 fun f hf => .of_value rfl (h f hf), .refl as⟩

end Match

theorem mem_of_lookup {k : String} {a : α} : ∀ {fields : List (String × α)}, lookup k fields = some a →
    (k, a) ∈ fields
  | (l, b) :: rest, h => by
    unfold lookup at h
    split at h
    · rename_i hk
      cases hk
      cases h
      exact List.mem_cons_self
    · exact List.mem_cons_of_mem _ (mem_of_lookup h)

variable {as : List (String × α)} {bs : List (String × β)}

/-- **Objects with distinct names match if they have as many fields, and each name of the first
is in the second with a value that is related.** -/
theorem match_iff_lookup (ha : (as.map Prod.fst).Nodup) (hb : (bs.map Prod.fst).Nodup) :
    Match R as bs ↔ as.length = bs.length ∧ ∀ f ∈ as, ∃ b, lookup f.1 bs = some b ∧ R f.2 b := by
  constructor
  · intro h
    refine ⟨h.length_eq, fun f hf => ?_⟩
    obtain ⟨g, hg, hfg⟩ := h.exists_left hf
    refine ⟨g.2, ?_, hfg.value⟩
    rw [hfg.name]
    exact lookup_of_mem hb hg
  · rintro ⟨hlength, h⟩
    -- the fields that are found are distinct and as many as there are: they are all of them
    have hfound : ∃ mid, List.Forall₂ (Rel R) as mid ∧ mid ⊆ bs := by
      clear ha hlength
      induction as with
      | nil => exact ⟨[], .nil, List.nil_subset _⟩
      | cons f as ih =>
        obtain ⟨⟨b, hlookup, hR⟩, hrest⟩ := List.forall_mem_cons.1 h
        obtain ⟨mid, hrel, hsub⟩ := ih hrest
        refine ⟨(f.1, b) :: mid, .cons (.of_value rfl hR) hrel, ?_⟩
        exact List.cons_subset.2 ⟨mem_of_lookup hlookup, hsub⟩
    obtain ⟨mid, hrel, hsub⟩ := hfound
    have hmid : (mid.map Prod.fst).Nodup := (Match.names ⟨mid, hrel, .refl mid⟩).nodup_iff.1 ha
    have hsubperm : mid.Subperm bs := List.subperm_of_subset hmid.of_map hsub
    exact ⟨mid, hrel, hsubperm.perm_of_length_le (Nat.le_of_eq (hlength.symm.trans hrel.length_eq))⟩

/-- Names stand for related values in objects that match. -/
theorem Match.lookup (h : Match R as bs) (ha : (as.map Prod.fst).Nodup) (k : String) :
    Option.Rel R (lookup k as) (lookup k bs) := by
  have hb : (bs.map Prod.fst).Nodup := h.names.nodup_iff.1 ha
  cases hk : Fields.lookup k as with
  | some a =>
    obtain ⟨b, hlookup, hR⟩ := ((match_iff_lookup ha hb).1 h).2 (k, a) (mem_of_lookup hk)
    rw [hlookup]
    exact .some hR
  | none =>
    cases hl : Fields.lookup k bs with
    | none => exact .none
    | some b =>
      obtain ⟨⟨l, a⟩, hf, hfg⟩ := h.exists_right (mem_of_lookup hl)
      cases hfg.name
      rw [lookup_of_mem ha hf] at hk
      cases hk

end Fields

/-! ### Documents -/

namespace Document

variable {ν : Type} {d e : Document ν}

/-- Two documents that differ only in the order of the names of objects, at any depth. -/
inductive Reordered : Document ν → Document ν → Prop
  | null : Reordered .null .null
  | boolean (b : Bool) : Reordered (.boolean b) (.boolean b)
  | number (n : ν) : Reordered (.number n) (.number n)
  | string (s : String) : Reordered (.string s) (.string s)
  | array {as bs : List (Document ν)} : List.Forall₂ Reordered as bs → Reordered (.array as) (.array bs)
  | object {as bs cs : List (String × Document ν)} : List.Forall₂ (Fields.Rel Reordered) as bs →
    bs.Perm cs → Reordered (.object as) (.object cs)

theorem reordered_array {as : List (Document ν)} :
    Reordered (.array as) d ↔ ∃ bs, d = .array bs ∧ List.Forall₂ Reordered as bs := by
  constructor
  · intro h
    cases h with
    | array h => exact ⟨_, rfl, h⟩
  · rintro ⟨bs, rfl, h⟩
    exact .array h

theorem reordered_object {as : List (String × Document ν)} :
    Reordered (.object as) d ↔ ∃ bs, d = .object bs ∧ Fields.Match Reordered as bs := by
  constructor
  · intro h
    cases h with
    | object hrel hperm => exact ⟨_, rfl, _, hrel, hperm⟩
  · rintro ⟨bs, rfl, mid, hrel, hperm⟩
    exact .object hrel hperm

namespace Reordered

theorem refl (d : Document ν) : Reordered d d := by
  induction d using byParts with
  | null => exact .null
  | boolean b => exact .boolean b
  | number n => exact .number n
  | string s => exact .string s
  | array items ih => exact .array (List.forall₂_same.2 ih)
  | object fields ih => exact reordered_object.2 ⟨fields, rfl, .refl ih⟩

theorem symm (h : Reordered d e) : Reordered e d := by
  induction d using byParts generalizing e with
  | null | boolean | number | string =>
    cases h
    exact .refl _
  | array items ih =>
    obtain ⟨bs, rfl, hitems⟩ := reordered_array.1 h
    exact .array (List.Forall₂.flip (forall₂_of_mem (fun a ha b _ hab => ih a ha hab) hitems))
  | object fields ih =>
    obtain ⟨bs, rfl, hfields⟩ := reordered_object.1 h
    exact reordered_object.2 ⟨fields, rfl, (hfields.imp fun f hf g _ hfg => ih f hf hfg).symm⟩

theorem trans {c : Document ν} (h : Reordered d e) (h' : Reordered e c) : Reordered d c := by
  induction d using byParts generalizing e c with
  | null | boolean | number | string =>
    cases h
    exact h'
  | array items ih =>
    obtain ⟨bs, rfl, hitems⟩ := reordered_array.1 h
    obtain ⟨cs, rfl, hitems'⟩ := reordered_array.1 h'
    refine .array (forall₂_of_mem ?_ (forall₂_comp hitems hitems'))
    rintro a ha c - ⟨b, -, hab, hbc⟩
    exact ih a ha hab hbc
  | object fields ih =>
    obtain ⟨bs, rfl, hfields⟩ := reordered_object.1 h
    obtain ⟨cs, rfl, hfields'⟩ := reordered_object.1 h'
    refine reordered_object.2 ⟨cs, rfl, (hfields.comp hfields').imp ?_⟩
    rintro f hf g - ⟨b, -, hfb, hbg⟩
    exact ih f hf hfb hbg

/-- The names stay distinct. -/
theorem distinct (h : Reordered d e) (hd : d.Distinct) : e.Distinct := by
  induction d using byParts generalizing e with
  | null | boolean | number | string =>
    cases h
    exact hd
  | array items ih =>
    obtain ⟨bs, rfl, hitems⟩ := reordered_array.1 h
    rw [distinct_array] at hd ⊢
    intro b hb
    obtain ⟨a, ha, hab⟩ := exists_of_forall₂ (R := flip Reordered) hitems.flip hb
    exact ih a ha hab (hd a ha)
  | object fields ih =>
    obtain ⟨bs, rfl, hfields⟩ := reordered_object.1 h
    rw [distinct_object] at hd ⊢
    refine ⟨hfields.names.nodup_iff.1 hd.1, fun g hg => ?_⟩
    obtain ⟨f, hf, hfg⟩ := hfields.exists_right hg
    exact ih f hf hfg.value (hd.2 f hf)

end Reordered

/-! ### Agreement -/

variable {eq : ν → ν → Bool} {p : ν → Prop}

/-- Objects with distinct names agree if their fields match. -/
theorem agree_object_iff_match {as bs : List (String × Document ν)} (ha : (as.map Prod.fst).Nodup)
    (hb : (bs.map Prod.fst).Nodup) :
    agree eq (.object as) (.object bs) = true ↔ Fields.Match (fun a b => agree eq a b = true) as bs := by
  rw [agree_object, Fields.match_iff_lookup ha hb]

/-- **Documents whose numbers agree with none but themselves agree if they differ in the order of
names only.** -/
theorem agree_iff_reordered (hp : ∀ m n, p m → p n → (eq m n = true ↔ m = n)) (hd : d.Distinct) (he : e.Distinct)
    (hpd : Every p d) (hpe : Every p e) : agree eq d e = true ↔ Reordered d e := by
  induction d using byParts generalizing e with
  | null | boolean | string =>
    constructor
    · intro h
      cases e <;> simp_all [agree, Reordered.refl]
    · intro h
      cases h
      simp [agree]
  | number m =>
    constructor
    · intro h
      cases e with
      | number n =>
        obtain rfl : m = n := (hp m n hpd hpe).1 h
        exact .number m
      | _ => cases h
    · intro h
      cases h
      exact (hp m m hpd hpd).2 rfl
  | array as ih =>
    cases e with
    | array bs =>
      rw [distinct_array] at hd he
      rw [every_array] at hpd hpe
      have hitems : ∀ a ∈ as, ∀ b ∈ bs, (agree eq a b = true ↔ Reordered a b) := fun a ha b hb =>
        ih a ha (hd a ha) (he b hb) (hpd a ha) (hpe b hb)
      rw [agree_array, reordered_array]
      constructor
      · exact fun h => ⟨bs, rfl, forall₂_of_mem (fun a ha b hb => (hitems a ha b hb).1) h⟩
      · rintro ⟨_, ⟨⟩, h⟩
        exact forall₂_of_mem (fun a ha b hb => (hitems a ha b hb).2) h
    | _ =>
      constructor
      · intro h
        cases h
      · intro h
        cases h
  | object as ih =>
    cases e with
    | object bs =>
      rw [distinct_object] at hd he
      rw [every_object] at hpd hpe
      have hvalues : ∀ f ∈ as, ∀ g ∈ bs, (agree eq f.2 g.2 = true ↔ Reordered f.2 g.2) := fun f hf g hg =>
        ih f hf (hd.2 f hf) (he.2 g hg) (hpd f hf) (hpe g hg)
      rw [agree_object_iff_match hd.1 he.1, reordered_object]
      constructor
      · exact fun h => ⟨bs, rfl, h.imp fun f hf g hg => (hvalues f hf g hg).1⟩
      · rintro ⟨_, ⟨⟩, h⟩
        exact h.imp fun f hf g hg => (hvalues f hf g hg).2
    | _ =>
      constructor
      · intro h
        cases h
      · intro h
        cases h

/-- Documents that agree still do when names come in another order. -/
theorem agree_of_reordered {d' e' : Document ν} (hd : d.Distinct) (he : e.Distinct) (hdd : Reordered d d')
    (hee : Reordered e e') (h : agree eq d e = true) : agree eq d' e' = true := by
  induction d using byParts generalizing e d' e' with
  | null | boolean | number | string =>
    cases hdd
    cases hee <;> exact h
  | array as ih =>
    obtain ⟨as', rfl, hleft⟩ := reordered_array.1 hdd
    cases hee with
    | @array bs bs' hright =>
      rw [distinct_array] at hd he
      rw [agree_array] at h ⊢
      have hback : List.Forall₂ (flip Reordered) as' as := List.Forall₂.flip hleft
      refine (forall₂_comp hback (forall₂_comp h hright)).imp ?_
      rintro a' b' ⟨a, ha, haa, b, hb, hab, hbb⟩
      exact ih a ha (hd a ha) (he b hb) haa hbb hab
    | _ => cases h
  | object as ih =>
    obtain ⟨as', rfl, hleft⟩ := reordered_object.1 hdd
    cases e with
    | object bs =>
      obtain ⟨bs', rfl, hright⟩ := reordered_object.1 hee
      rw [distinct_object] at hd he
      rw [agree_object_iff_match hd.1 he.1] at h
      rw [agree_object_iff_match (hleft.names.nodup_iff.1 hd.1) (hright.names.nodup_iff.1 he.1)]
      refine (hleft.symm.comp (h.comp hright)).imp ?_
      rintro f' - g' - ⟨f, hf, hff, g, hg, hfg, hgg⟩
      exact ih f hf (hd.2 f hf) (he.2 g hg) hff hgg hfg
    | _ => cases h

/-- **Agreement does not depend on the order of names.** -/
theorem agree_congr {d' e' : Document ν} (hd : d.Distinct) (he : e.Distinct) (hdd : Reordered d d')
    (hee : Reordered e e') : agree eq d e = agree eq d' e' := by
  rw [Bool.eq_iff_iff]
  constructor
  · exact agree_of_reordered hd he hdd hee
  · exact agree_of_reordered (hdd.distinct hd) (hee.distinct he) hdd.symm hee.symm

end Document

/-! ### Values -/

/-- Integers are equal to none but themselves. -/
theorem Number.compare?_eq_iff {m n : Number} (hm : m.IsInteger) (hn : n.IsInteger) :
    (m.compare? n == some .eq) = true ↔ m = n := by
  cases m with
  | float x => exact hm.elim
  | integer i =>
    cases n with
    | float y => exact hn.elim
    | integer j => simp [Number.compare?, Int64.toInt_inj]

namespace Value

open Document

variable {a a' b b' : Value}

/-- A value without doubles in which no object has a name twice. -/
structure Exact (v : Value) : Prop where
  distinct : v.Distinct
  floatFree : v.FloatFree

/-- **Values without doubles are equal if they differ in the order of names only.** -/
theorem equal_iff_reordered (ha : a.Exact) (hb : b.Exact) : equal a b = true ↔ a.Reordered b :=
  agree_iff_reordered (fun _ _ => Number.compare?_eq_iff) ha.distinct hb.distinct ha.floatFree hb.floatFree

/-- Equality does not depend on the order of names, with doubles or without. -/
theorem equal_congr (ha : a.Distinct) (hb : b.Distinct) (haa : a.Reordered a') (hbb : b.Reordered b') :
    equal a b = equal a' b' :=
  agree_congr ha hb haa hbb

/-- Nor does the order of two values, which only numbers have. -/
theorem compare?_congr (haa : a.Reordered a') (hbb : b.Reordered b') : compare? a b = compare? a' b' := by
  cases haa <;> cases hbb <;> rfl

/-- Comparisons do not depend on the order of names. -/
theorem compareBy_congr (c : Comparator) (ha : a.Distinct) (hb : b.Distinct) (haa : a.Reordered a')
    (hbb : b.Reordered b') : compareBy c a b = compareBy c a' b' := by
  have hequal : equal a b = equal a' b' := equal_congr ha hb haa hbb
  have hcompare : compare? a b = compare? a' b' := compare?_congr haa hbb
  cases c <;> simp only [compareBy, hequal, hcompare]

theorem typeName_congr (h : a.Reordered b) : a.typeName = b.typeName := by
  cases h <;> rfl

/-- An item equal to a value is found whatever the order of names. -/
theorem any_equal_congr {items items' : List Value} (hitems : ∀ v ∈ items, v.Distinct) (hb : b.Distinct)
    (h : List.Forall₂ Reordered items items') (hbb : b.Reordered b') :
    items.any (equal · b) = items'.any (equal · b') := by
  induction h with
  | nil => rfl
  | cons hv _ ih =>
    obtain ⟨hdistinct, hrest⟩ := List.forall_mem_cons.1 hitems
    rw [List.any_cons, List.any_cons, equal_congr hdistinct hb hv hbb, ih hrest]

/-- What holds a value does not depend on the order of names, nor does the fault of what cannot. -/
theorem contains_congr (ha : a.Distinct) (hb : b.Distinct) (haa : a.Reordered a') (hbb : b.Reordered b') :
    contains a b = contains a' b' := by
  have htype : b.typeName = b'.typeName := typeName_congr hbb
  cases haa with
  | array hitems =>
    rw [distinct_array] at ha
    rw [contains, contains, any_equal_congr ha hb hitems hbb]
  | string s =>
    cases hbb with
    | string t => rfl
    | _ => simp only [contains, htype]
  | _ => rfl

/-- **Equality of values without doubles is an equivalence.** It holds exactly of values that differ
in the order of names only, so the two sides of `==` and of `!=` may change places. A side of
these, or what `contains` is given, may be replaced by a value that differs in the order of names,
within its items as well: the answer stays the same, whether there are doubles or not. -/
theorem equal_equivalence :
    Equivalence (fun a b : {v : Value // v.Exact} => equal a b = true) ∧
    (∀ a b : Value, a.Exact → b.Exact → (equal a b = true ↔ a.Reordered b)) ∧
    (∀ a b : Value, a.Exact → b.Exact →
      compareBy .eq a b = compareBy .eq b a ∧ compareBy .ne a b = compareBy .ne b a) ∧
    ∀ a a' b b' : Value, a.Distinct → b.Distinct → a.Reordered a' → b.Reordered b' →
      compareBy .eq a b = compareBy .eq a' b' ∧ compareBy .ne a b = compareBy .ne a' b' ∧
        contains a b = contains a' b' := by
  have hsymm : ∀ a b : Value, a.Exact → b.Exact → equal a b = equal b a := by
    intro a b ha hb
    rw [Bool.eq_iff_iff, equal_iff_reordered ha hb, equal_iff_reordered hb ha]
    exact ⟨.symm, .symm⟩
  refine ⟨⟨fun a => ?_, fun {a b} h => ?_, fun {a b c} hab hbc => ?_⟩, ?_, ?_, ?_⟩
  · exact (equal_iff_reordered a.2 a.2).2 (.refl a.1)
  · rw [← hsymm a b a.2 b.2]
    exact h
  · rw [equal_iff_reordered a.2 b.2] at hab
    rw [equal_iff_reordered b.2 c.2] at hbc
    exact (equal_iff_reordered a.2 c.2).2 (hab.trans hbc)
  · exact fun a b => equal_iff_reordered
  · intro a b ha hb
    simp only [compareBy, hsymm a b ha hb, true_and]
  · intro a a' b b' ha hb haa hbb
    exact ⟨compareBy_congr .eq ha hb haa hbb, compareBy_congr .ne ha hb haa hbb, contains_congr ha hb haa hbb⟩

/-- Names in another order at two depths, as a side and as an item. -/
theorem equal_equivalence_nested :
    let v : Value := .object [("a", integer 1), ("b", .array [.object [("c", .null), ("d", .string "x")]])]
    let w : Value := .object [("b", .array [.object [("d", .string "x"), ("c", .null)]]), ("a", integer 1)]
    v.Exact ∧ w.Exact ∧ v.Reordered w ∧ equal v w = true ∧ compareBy .ne v w = compareBy .ne w v ∧
      contains (.array [.null, v]) w = contains (.array [.null, w]) v := by
  intro v w
  have hv : v.Exact := ⟨by decide, by decide⟩
  have hw : w.Exact := ⟨by decide, by decide⟩
  have hequal : equal v w = true := by rfl
  have hvw : v.Reordered w := (equal_equivalence.2.1 v w hv hw).1 hequal
  have hitems : Reordered (.array [.null, v]) (.array [.null, w]) := .array (.cons .null (.cons hvw .nil))
  refine ⟨hv, hw, hvw, hequal, (equal_equivalence.2.2.1 v w hv hw).2, ?_⟩
  exact (equal_equivalence.2.2.2 _ _ _ _ (by decide) hw.distinct hitems hvw.symm).2.2

end Value

end PathQuery
