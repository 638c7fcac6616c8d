/-
# Less room and more

The budget of a reader decides which nested expressions it may still look at, and a form
that is refused one of them goes on with what else it can try. So a reader with less room
may read the same text as another tree. It reads nothing, though, that a reader with more
room refuses, and it reads the same whenever the tree of the other fits into its room
(`Expr.rule_reach`): a tree that fits is found by forms, cuts and commas all of which the
smaller room can look at too, and what the larger room passes over the smaller one does.
With the commas of a list this rests on there being one way at most to tell the entries
apart (`Rule.Closes.comma_unique`).

Key definitions: `Expr.depth`, `Upto`, `Rule.Reach`.
Key theorems: `Upto.findSome?`, `Rule.entries_reach`, `Expr.rule_reach`,
`Expr.parse_of_le`, `Expr.parse_of_reads`.
-/
import PathQuery.Proofs.Commas

namespace PathQuery

/-! ### How deep expressions nest -/

mutual

/-- How deep expressions nest in an expression, which is the first of them itself. -/
def Expr.depth : Expr → Nat
  | .selector x => x.depth + 1
  | .dot l x => max l.depth x.depth + 1
  | .index b => b.depth + 1
  | .indexOf l b => max l.depth b.depth + 1
  | .binary _ l r => max l.depth r.depth + 1
  | .not e => e.depth + 1
  | .paren e => e.depth + 1
  | .literal _ => 1
  | .raw _ => 1
  | .current => 1

/-- How deep expressions nest in a selector. -/
def Selector.depth : Selector → Nat
  | .identifier _ => 0
  | .star => 0
  | .list es => Expr.depthAll es
  | .hash es => Entry.depthAll es
  | .call _ as => Argument.depthAll as

/-- How deep expressions nest in a bracket. -/
def Bracket.depth : Bracket → Nat
  | .flatten => 0
  | .number _ => 0
  | .star => 0
  | .slice _ => 0
  | .filter e => e.depth

/-- How deep expressions nest in an entry. -/
def Entry.depth : Entry → Nat
  | .mk _ e => e.depth

/-- How deep expressions nest in an argument. -/
def Argument.depth : Argument → Nat
  | .value e => e.depth
  | .reference e => e.depth

/-- How deep expressions nest in the deepest of several. -/
def Expr.depthAll : List Expr → Nat
  | [] => 0
  | e :: es => max e.depth (Expr.depthAll es)

/-- How deep expressions nest in the deepest of several entries. -/
def Entry.depthAll : List Entry → Nat
  | [] => 0
  | e :: es => max e.depth (Entry.depthAll es)

/-- How deep expressions nest in the deepest of several arguments. -/
def Argument.depthAll : List Argument → Nat
  | [] => 0
  | a :: as => max a.depth (Argument.depthAll as)

end

theorem Expr.depth_pos (e : Expr) : 0 < e.depth := by
  cases e <;> simp only [Expr.depth] <;> omega

variable {n : Nat}

theorem Expr.depthAll_le : ∀ {es : List Expr}, depthAll es ≤ n ↔ ∀ e ∈ es, e.depth ≤ n
  | [] => by simp [depthAll]
  | e :: es => by rw [depthAll, Nat.max_le, depthAll_le, List.forall_mem_cons]

theorem Entry.depthAll_le : ∀ {es : List Entry}, depthAll es ≤ n ↔ ∀ e ∈ es, e.depth ≤ n
  | [] => by simp [depthAll]
  | e :: es => by rw [depthAll, Nat.max_le, depthAll_le, List.forall_mem_cons]

theorem Argument.depthAll_le : ∀ {as : List Argument}, depthAll as ≤ n ↔ ∀ a ∈ as, a.depth ≤ n
  | [] => by simp [depthAll]
  | a :: as => by rw [depthAll, Nat.max_le, depthAll_le, List.forall_mem_cons]

/-! ### What is found with less room and with more -/

variable {α β γ : Type}

/-- How what is found with less room is related to what is found with more, if `D` holds of
what fits into the less. -/
structure Upto (D : α → Prop) (low high : Option α) : Prop where
  fits : ∀ a, low = some a → D a
  found : ∀ a, low = some a → ∃ b, high = some b
  same : ∀ b, high = some b → D b → low = some b

namespace Upto

variable {D : α → Prop} {E : β → Prop} {low low' high high' o : Option α}

/-- Nothing is found where all that more room finds does not fit. -/
theorem none (h : ∀ b, high = some b → ¬D b) : Upto D none high :=
  ⟨nofun, nofun, fun b hb hD => absurd hD (h b hb)⟩

theorem nothing : Upto D Option.none Option.none := .none nofun

/-- The same is found, and fits. -/
theorem refl (h : ∀ a, o = some a → D a) : Upto D o o := ⟨h, fun a ha => ⟨a, ha⟩, fun _ hb _ => hb⟩

theorem map (h : Upto D low high) {f : α → β} (hf : ∀ a, E (f a) ↔ D a) : Upto E (low.map f) (high.map f) where
  fits b hb := by
    obtain ⟨a, ha, rfl⟩ := Option.map_eq_some_iff.mp hb
    exact (hf a).mpr (h.fits a ha)
  found b hb := by
    obtain ⟨a, ha, -⟩ := Option.map_eq_some_iff.mp hb
    obtain ⟨a', ha'⟩ := h.found a ha
    exact ⟨f a', Option.map_eq_some_iff.mpr ⟨a', ha', rfl⟩⟩
  same b hb hE := by
    obtain ⟨a, ha, rfl⟩ := Option.map_eq_some_iff.mp hb
    rw [h.same a ha ((hf a).mp hE)]
    rfl

/-- What more room finds first and does not fit stands in the way of nothing that fits. -/
theorem or (h : Upto D low high) (h' : Upto D low' high') : Upto D (low.or low') (high.or high') := by
  cases hlow : low with
  | some a =>
    obtain ⟨b, hb⟩ := h.found a hlow
    rw [hb, Option.some_or, Option.some_or, ← hlow, ← hb]
    exact h
  | none =>
    cases hhigh : high with
    | none => rwa [Option.none_or, Option.none_or]
    | some b =>
      have hD : ¬D b := fun hD => nomatch hlow.symm.trans (h.same b hhigh hD)
      rw [Option.none_or, Option.some_or]
      refine ⟨h'.fits, fun _ _ => ⟨b, rfl⟩, ?_⟩
      rintro _ ⟨⟩ hD'
      exact absurd hD' hD

theorem findSome? {xs : List γ} {f f' : γ → Option α} (h : ∀ x ∈ xs, Upto D (f x) (f' x)) :
    Upto D (xs.findSome? f) (xs.findSome? f') := by
  induction xs with
  | nil => exact .nothing
  | cons x xs ih =>
    have hcons : ∀ g : γ → Option α, (x :: xs).findSome? g = (g x).or (xs.findSome? g) := by
      intro g
      rw [List.findSome?_cons]
      cases g x <;> rfl
    rw [hcons, hcons]
    exact (h x List.mem_cons_self).or (ih fun y hy => h y (List.mem_cons_of_mem x hy))

end Upto

/-! ### Rules with less room and with more -/

namespace Rule

variable {D : α → Prop} {E : β → Prop} {s : Span}

/-- How a rule with less room is related to the rule with more. -/
def Reach (D : α → Prop) (low high : Rule α) : Prop := ∀ s, Upto D (low s).toOption (high s).toOption

theorem toOption_eq_some {r : Except Failure α} {a : α} : r.toOption = some a ↔ r = .ok a := by
  cases r with
  | error f => exact ⟨nofun, nofun⟩
  | ok b => exact ⟨fun h => congrArg _ (Option.some.inj h), fun h => congrArg _ (Except.ok.inj h)⟩

namespace Reach

variable {low high : Rule α}

theorem fits (h : Reach D low high) {a : α} (ha : low s = .ok a) : D a := (h s).fits a (toOption_eq_some.mpr ha)

theorem found (h : Reach D low high) {a : α} (ha : low s = .ok a) : ∃ b, high s = .ok b := by
  obtain ⟨b, hb⟩ := (h s).found a (toOption_eq_some.mpr ha)
  exact ⟨b, toOption_eq_some.mp hb⟩

theorem same (h : Reach D low high) {b : α} (hb : high s = .ok b) (hD : D b) : low s = .ok b :=
  toOption_eq_some.mp ((h s).same b (toOption_eq_some.mpr hb) hD)

/-- A rule that has nothing nested to look at. -/
theorem refl {rule : Rule α} (h : ∀ s a, rule s = .ok a → D a) : Reach D rule rule := fun s =>
  .refl fun a ha => h s a (toOption_eq_some.mp ha)

theorem map (h : Reach D low high) {f : α → β} (hf : ∀ a, E (f a) ↔ D a) :
    Reach E (fun s => (low s).map f) fun s => (high s).map f := by
  intro s
  have hmap : ∀ r : Except Failure α, (r.map f).toOption = r.toOption.map f := fun r => by cases r <;> rfl
  rw [hmap, hmap]
  exact (h s).map hf

end Reach

theorem upto_fail {rule : String} {reason : Reason} {p : Nat} :
    Upto D (fail rule reason p).toOption (fail rule reason p).toOption :=
  .nothing

theorem upto_ite {c : Prop} [Decidable c] {a b a' b' : Except Failure α}
    (ht : c → Upto D a.toOption a'.toOption) (he : ¬c → Upto D b.toOption b'.toOption) :
    Upto D (if c then a else b).toOption (if c then a' else b').toOption := by
  by_cases hc : c
  · rw [if_pos hc, if_pos hc]
    exact ht hc
  · rw [if_neg hc, if_neg hc]
    exact he hc

/-- A first step that both rules take. -/
theorem upto_bind {r : Except Failure α} {f f' : α → Except Failure β}
    (h : ∀ a, Upto E (f a).toOption (f' a).toOption) : Upto E (r >>= f).toOption (r >>= f').toOption := by
  cases r with
  | error e => exact .nothing
  | ok a => exact h a

/-- What a split that is found, or is not, leads to. -/
theorem upto_split {o o' : Option α} (h : Upto D o o') (f : α → β) (hf : ∀ x, E (f x) ↔ D x)
    {r r' : Except Failure β} (hr : r.toOption = o.map f) (hr' : r'.toOption = o'.map f) :
    Upto E r.toOption r'.toOption := by
  rw [hr, hr']
  exact h.map hf

theorem oneOf_reach {name : String} {rules rules' : List (Rule α)} (h : List.Forall₂ (Reach D) rules rules') :
    Reach D (oneOf name rules) (oneOf name rules') := by
  have hone : ∀ (rules : List (Rule α)) s, (oneOf name rules s).toOption = (attempts s rules).toOption := by
    intro rules s
    unfold oneOf
    cases attempts s rules <;> rfl
  have hcons : ∀ (rule : Rule α) rules s,
      (attempts s (rule :: rules)).toOption = (rule s).toOption.or (attempts s rules).toOption := by
    intro rule rules s
    rw [attempts]
    cases rule s with
    | ok a => rfl
    | error f => cases attempts s rules <;> rfl
  intro s
  rw [hone, hone]
  induction h with
  | nil => exact .nothing
  | cons h _ ih =>
    rw [hcons, hcons]
    exact (h s).or ih

variable {left left' : Rule α} {right right' : Rule β}

theorem pair_upto (hl : Reach D left left') (hr : Reach E right right') (l r : Span) :
    Upto (fun x => D x.1 ∧ E x.2) (pair left l right r).toOption (pair left' l right' r).toOption where
  fits x hx := by
    obtain ⟨ha, hb⟩ := pair_eq_some.mp hx
    exact ⟨hl.fits ha, hr.fits hb⟩
  found x hx := by
    obtain ⟨ha, hb⟩ := pair_eq_some.mp hx
    obtain ⟨a', ha'⟩ := hl.found ha
    obtain ⟨b', hb'⟩ := hr.found hb
    exact ⟨(a', b'), pair_eq_some.mpr ⟨ha', hb'⟩⟩
  same x hx hD := by
    obtain ⟨ha, hb⟩ := pair_eq_some.mp hx
    exact pair_eq_some.mpr ⟨hl.same ha hD.1, hr.same hb hD.2⟩

theorem firstSplit_upto (hl : Reach D left left') (hr : Reach E right right') (s : Span) (cuts : List Nat)
    (width : Nat) : Upto (fun x => D x.1 ∧ E x.2) (firstSplit s cuts width left right)
      (firstSplit s cuts width left' right') :=
  .findSome? fun _ _ => pair_upto hl hr _ _

/-! ### Entries with less room and with more -/

section

variable {src : Source} {low high : Rule α} {stop : Nat}

/-- The first entry ends at a comma or at the stop. -/
theorem entriesFrom_first {commas : List Nat} {start : Nat} {as : List α}
    (h : entriesFrom low stop commas start = .ok as) : ∃ q, (q ∈ commas ∨ q = stop) ∧ ∃ a, low ⟨start, q⟩ = .ok a := by
  obtain ⟨cuts, hsub, hcuts⟩ := entriesFrom_cut h
  cases cuts with
  | nil =>
    cases hcuts with
    | cons ha _ => exact ⟨stop, .inr rfl, _, ha⟩
  | cons q cuts =>
    cases hcuts with
    | cons ha _ => exact ⟨q, .inl (hsub.subset List.mem_cons_self), _, ha⟩

theorem entriesFrom_found (h : Reach D low high) (hclosed : Closes src high) (hstop : stop ≤ src.size) :
    ∀ {commas : List Nat} {start : Nat} {as : List α}, commas.Pairwise (· < ·) →
      (∀ p ∈ commas, p < stop ∧ src.charAt p = some ',') → (∀ p ∈ commas, start ≤ p) →
      entriesFrom low stop commas start = .ok as → ∃ bs, entriesFrom high stop commas start = .ok bs
  | [], start, as, _, _, _, hlow => by
    unfold entriesFrom at hlow ⊢
    split at hlow
    · rename_i a ha
      obtain ⟨b, hb⟩ := h.found ha
      exact ⟨[b], by rw [hb]⟩
    · cases hlow
  | comma :: commas, start, as, hsorted, hcommas, hstart, hlow => by
    obtain ⟨hafter, hsorted⟩ := List.pairwise_cons.mp hsorted
    obtain ⟨hcomma, hcommas⟩ := List.forall_mem_cons.mp hcommas
    obtain ⟨hfirst, hstart⟩ := List.forall_mem_cons.mp hstart
    unfold entriesFrom at hlow
    split at hlow
    · rename_i a ha
      split at hlow
      · rename_i as' hrest
        obtain ⟨b, hb⟩ := h.found ha
        obtain ⟨bs, hbs⟩ := entriesFrom_found h hclosed hstop hsorted hcommas hafter hrest
        exact ⟨b :: bs, by rw [entriesFrom, hb]; simp only [hbs]⟩
      · cases hlow
    · -- the entry ends further on, so with more room too it does not end here
      obtain ⟨q, hq, a, ha⟩ := entriesFrom_first hlow
      obtain ⟨b, hb⟩ := h.found ha
      have hlt : comma < q ∧ q ≤ src.size := by
        rcases hq with hq | rfl
        · have := hafter q hq
          have := hcommas q hq
          omega
        · omega
      cases hhigh : high ⟨start, comma⟩ with
      | ok c => exact absurd hb (hclosed.not_comma hfirst hlt.1 hlt.2 hcomma.2 hhigh)
      | error f =>
        obtain ⟨bs, hbs⟩ := entriesFrom_found h hclosed hstop hsorted hcommas hstart hlow
        exact ⟨bs, by rw [entriesFrom, hhigh]; exact hbs⟩

theorem entriesFrom_same (h : Reach D low high) : ∀ {commas : List Nat} {start : Nat} {bs : List α},
    entriesFrom high stop commas start = .ok bs → (∀ b ∈ bs, D b) → entriesFrom low stop commas start = .ok bs
  | [], start, bs, hhigh, hD => by
    unfold entriesFrom at hhigh ⊢
    split at hhigh
    · rename_i b hb
      cases hhigh
      rw [h.same hb (hD b List.mem_cons_self)]
    · cases hhigh
  | comma :: commas, start, bs, hhigh, hD => by
    unfold entriesFrom at hhigh
    split at hhigh
    · rename_i b hb
      split at hhigh
      · rename_i bs' hrest
        cases hhigh
        obtain ⟨hb', hD⟩ := List.forall_mem_cons.mp hD
        rw [entriesFrom, h.same hb hb']
        simp only [entriesFrom_same h hrest hD]
      · cases hhigh
    · rename_i f hf
      cases hlow : low ⟨start, comma⟩ with
      | ok a =>
        obtain ⟨b, hb⟩ := h.found hlow
        cases hf.symm.trans hb
      | error g =>
        rw [entriesFrom, hlow]
        exact entriesFrom_same h hhigh hD

/-- A rule accepts closed texts only if it does with more room. -/
theorem Closes.of_reach (hclosed : Closes src high) (h : Reach D low high) : Closes src low := fun r _ hr ha => by
  obtain ⟨b, hb⟩ := h.found ha
  exact hclosed r b hr hb

theorem separated_found (h : Reach D low high) (hclosed : Closes src high) {inner : Span}
    (hinner : inner.stop ≤ src.size) {as : List α} (hlow : Separated src low inner as) :
    ∃ bs, Separated src high inner bs := by
  cases hlow with
  | single hnone ha =>
    obtain ⟨b, hb⟩ := h.found ha
    exact ⟨[b], .single hnone hb⟩
  | @several a as comma hfirst hrest =>
    obtain ⟨hmem, ha⟩ := mem_firstEntries.mp (hfirst ▸ List.mem_singleton_self (comma, a))
    obtain ⟨b, hb⟩ := h.found ha
    have hcommas : ∀ p ∈ (src.findAll inner [',']).filter (comma < ·), p ∈ src.findAll inner [','] ∧ comma < p :=
      fun p hp => (List.mem_filter.mp hp).imp_right of_decide_eq_true
    obtain ⟨bs, hbs⟩ := entriesFrom_found h hclosed hinner ((src.findAll_sorted inner [',']).filter _)
      (fun p hp => ⟨(charAt_of_mem_commas (hcommas p hp).1).2.1, (charAt_of_mem_commas (hcommas p hp).1).2.2.2⟩)
      (fun p hp => (hcommas p hp).2) hrest
    exact ⟨b :: bs, .several (hclosed.firstEntries_eq hmem hb) hbs⟩

theorem separated_same (h : Reach D low high) (hclosed : Closes src high) {inner : Span} {bs : List α}
    (hhigh : Separated src high inner bs) (hD : ∀ b ∈ bs, D b) : Separated src low inner bs := by
  cases hhigh with
  | single hnone hb => exact .single hnone (h.same hb (hD _ List.mem_cons_self))
  | @several b bs comma hfirst hrest =>
    obtain ⟨hmem, hb⟩ := mem_firstEntries.mp (hfirst ▸ List.mem_singleton_self (comma, b))
    obtain ⟨hb', hD⟩ := List.forall_mem_cons.mp hD
    exact .several ((hclosed.of_reach h).firstEntries_eq hmem (h.same hb hb')) (entriesFrom_same h hrest hD)

/-- **Entries are told apart in the same way**, if what is accepted with more room is
closed. -/
theorem entries_reach (h : Reach D low high) (hclosed : Closes src high) {opening closing : Char} :
    Reach (fun as => ∀ a ∈ as, D a) (entries src opening closing low) (entries src opening closing high) := by
  refine fun s => ⟨fun as has => ?_, fun as has => ?_, fun bs hbs hD => ?_⟩
  · obtain ⟨cuts, -, -, hcuts⟩ := entries_cut (toOption_eq_some.mp has)
    exact ((List.forall₂_and_left _ _).mp (hcuts.flip.imp fun a r ha => ⟨h.fits ha, ha⟩)).1
  · obtain ⟨hlt, hlen, hopening, hclosing, hlow⟩ := entries_eq_ok.mp (toOption_eq_some.mp has)
    have hsize : (src.trim s).stop - 1 < src.size := (Array.getElem?_eq_some_iff.mp hclosing).1
    obtain ⟨bs, hbs⟩ := separated_found h hclosed (Nat.le_of_lt hsize) hlow
    exact ⟨bs, toOption_eq_some.mpr (entries_eq_ok.mpr ⟨hlt, hlen, hopening, hclosing, hbs⟩)⟩
  · obtain ⟨hlt, hlen, hopening, hclosing, hhigh⟩ := entries_eq_ok.mp (toOption_eq_some.mp hbs)
    exact toOption_eq_some.mpr (entries_eq_ok.mpr ⟨hlt, hlen, hopening, hclosing, separated_same h hclosed hhigh hD⟩)

end

end Rule

/-! ### Forms with less room and with more -/

namespace Form

open Rule

variable {src : Source} {low high : Rule Expr}

theorem joined_reach (h : Reach (·.depth ≤ n) low high) (rule symbol : String) (op : Operator) :
    Reach (·.depth ≤ n + 1) (joined src low rule symbol op) (joined src high rule symbol op) := by
  refine fun s => upto_bind fun t => ?_
  have hsides := firstSplit_upto h h t (src.findAll t.inner symbol.toList) symbol.length
  refine upto_split hsides (fun x => .binary op x.1 x.2) (fun x => ?_) ?_ ?_
  · simp only [Expr.depth]
    omega
  · cases firstSplit t (src.findAll t.inner symbol.toList) symbol.length low low <;> rfl
  · cases firstSplit t (src.findAll t.inner symbol.toList) symbol.length high high <;> rfl

theorem comparison_reach (h : Reach (·.depth ≤ n) low high) :
    Reach (·.depth ≤ n + 1) (comparison src low) (comparison src high) := by
  refine fun s => upto_bind fun t => ?_
  have hsides : ∀ c ∈ Comparator.all, Upto (·.depth ≤ n + 1)
      ((firstSplit t (src.findAll t c.symbol.toList) c.symbol.length low low).map
        fun sides => Expr.binary (.compare c) sides.1 sides.2)
      ((firstSplit t (src.findAll t c.symbol.toList) c.symbol.length high high).map
        fun sides => Expr.binary (.compare c) sides.1 sides.2) := fun c _ =>
    (firstSplit_upto h h t _ _).map fun x => by
      simp only [Expr.depth]
      omega
  refine upto_split (.findSome? hsides) id (fun _ => Iff.rfl) ?_ ?_
  · simp only
    split <;> rename_i hlow <;> rw [hlow] <;> rfl
  · simp only
    split <;> rename_i hhigh <;> rw [hhigh] <;> rfl

theorem negated_reach (h : Reach (·.depth ≤ n) low high) :
    Reach (·.depth ≤ n + 1) (negated src low) (negated src high) :=
  fun _ => upto_bind fun _ => upto_ite (fun _ => upto_fail) fun _ =>
    h.map (fun _ => by simp only [Expr.depth]; omega) _

theorem parenthesised_reach (h : Reach (·.depth ≤ n) low high) :
    Reach (·.depth ≤ n + 1) (parenthesised src low) (parenthesised src high) :=
  fun _ => upto_bind fun _ => upto_ite (fun _ => upto_fail) fun _ => upto_ite (fun _ => upto_fail) fun _ =>
    h.map (fun _ => by simp only [Expr.depth]; omega) _

theorem listOf_reach (h : Reach (·.depth ≤ n) low high) (hclosed : Closes src high) :
    Reach (·.depth ≤ n) (listOf src low) (listOf src high) :=
  (entries_reach h hclosed).map fun _ => Expr.depthAll_le

theorem keyValue_reach (h : Reach (·.depth ≤ n) low high) :
    Reach (·.depth ≤ n) (keyValue src low) (keyValue src high) := by
  refine fun s => upto_bind fun t => ?_
  have hkey : Reach (fun _ => True) (Token.identifier src) (Token.identifier src) := .refl fun _ _ _ => trivial
  have hsides := firstSplit_upto hkey h t (src.findAll t.inner [':']) 1
  refine upto_split hsides (fun x => .mk x.1 x.2) (fun x => ?_) ?_ ?_
  · simp only [Entry.depth, true_and]
  · cases firstSplit t (src.findAll t.inner [':']) 1 (Token.identifier src) low <;> rfl
  · cases firstSplit t (src.findAll t.inner [':']) 1 (Token.identifier src) high <;> rfl

theorem hashOf_reach (h : Reach (·.depth ≤ n) low high) (hclosed : Closes src high) :
    Reach (·.depth ≤ n) (hashOf src low) (hashOf src high) :=
  (entries_reach (keyValue_reach h) (EntryKind.closes hclosed .member)).map fun _ => Entry.depthAll_le

theorem reference_reach (h : Reach (·.depth ≤ n) low high) :
    Reach (·.depth ≤ n) (reference src low) (reference src high) :=
  fun _ => upto_bind fun _ => upto_ite (fun _ => upto_fail) fun _ => h _

theorem argument_reach (h : Reach (·.depth ≤ n) low high) :
    Reach (·.depth ≤ n) (argument src low) (argument src high) :=
  oneOf_reach (.cons (h.map fun _ => Iff.rfl) (.cons ((reference_reach h).map fun _ => Iff.rfl) .nil))

theorem arguments_reach (h : Reach (·.depth ≤ n) low high) (hclosed : Closes src high) :
    Reach (∀ a ∈ ·, a.depth ≤ n) (arguments src low) (arguments src high) := by
  refine oneOf_reach (.cons (.refl fun s as has => ?_) (.cons ?_ .nil))
  · rw [(noArguments_text has).1]
    exact nofun
  · exact entries_reach (argument_reach h) (EntryKind.closes hclosed .argument)

theorem call_reach (h : Reach (·.depth ≤ n) low high) (hclosed : Closes src high) :
    Reach (·.depth ≤ n) (call src low) (call src high) :=
  fun _ => upto_bind fun _ => upto_ite (fun _ => upto_fail) fun _ => upto_bind fun _ =>
    (arguments_reach h hclosed).map (fun _ => Argument.depthAll_le) _

theorem identifier_reach : Reach (·.depth ≤ n) (identifier src) (identifier src) := .refl fun s x hx => by
  obtain ⟨_, -, rfl⟩ := map_eq_ok.mp hx
  exact Nat.zero_le n

theorem star_reach : Reach (·.depth ≤ n) (star src) (star src) := .refl fun s x hx => by
  obtain ⟨_, -, rfl⟩ := map_eq_ok.mp hx
  exact Nat.zero_le n

theorem afterDot_reach (h : Reach (·.depth ≤ n) low high) (hclosed : Closes src high) :
    Reach (·.depth ≤ n) (afterDot src low) (afterDot src high) :=
  oneOf_reach (.cons identifier_reach (.cons (listOf_reach h hclosed) (.cons (hashOf_reach h hclosed)
    (.cons (call_reach h hclosed) (.cons star_reach .nil)))))

theorem dotted_reach (h : Reach (·.depth ≤ n) low high) (hclosed : Closes src high) :
    Reach (·.depth ≤ n + 1) (dotted src low) (dotted src high) := by
  refine fun s => upto_bind fun t => ?_
  have hsides := firstSplit_upto h (afterDot_reach h hclosed) t (src.findAll t.inner ['.']) 1
  refine upto_split hsides (fun x => .dot x.1 x.2) (fun x => ?_) ?_ ?_
  · simp only [Expr.depth]
    omega
  · cases firstSplit t (src.findAll t.inner ['.']) 1 low (afterDot src low) <;> rfl
  · cases firstSplit t (src.findAll t.inner ['.']) 1 high (afterDot src high) <;> rfl

theorem bracketContent_reach : Reach (·.depth ≤ n) (bracketContent src) (bracketContent src) :=
  .refl fun s b hb => by
    obtain ⟨rule, hrule, hb⟩ := oneOf_eq_ok hb
    simp only [List.mem_cons, List.not_mem_nil, or_false] at hrule
    rcases hrule with rfl | rfl | rfl <;> obtain ⟨_, -, rfl⟩ := map_eq_ok.mp hb <;> exact Nat.zero_le n

theorem bracket_reach (h : Reach (·.depth ≤ n) low high) :
    Reach (·.depth ≤ n) (bracket src low) (bracket src high) := by
  refine fun s => upto_bind fun t => upto_ite (fun _ => upto_fail) fun _ => upto_ite (fun _ => upto_fail) fun _ =>
    upto_ite (fun _ => .refl ?_) fun _ => upto_ite (fun _ => ?_) fun _ => bracketContent_reach _
  · rintro _ ⟨⟩
    exact Nat.zero_le n
  · exact h.map (fun _ => Iff.rfl) _

theorem indexedLeft_reach (h : Reach (·.depth ≤ n) low high) :
    Reach (·.depth ≤ n + 1) (indexedLeft src low) (indexedLeft src high) := by
  refine fun s => upto_bind fun t => ?_
  have hbracket : Reach (·.depth ≤ n) (bracket src low) (bracket src high) := bracket_reach h
  have hsides := firstSplit_upto h hbracket t (src.findAll t.inner ['[']) 0
  refine upto_split hsides (fun x => .indexOf x.1 x.2) (fun x => ?_) ?_ ?_
  · simp only [Expr.depth]
    omega
  · cases firstSplit t (src.findAll t.inner ['[']) 0 low (bracket src low) <;> rfl
  · cases firstSplit t (src.findAll t.inner ['[']) 0 high (bracket src high) <;> rfl

theorem indexed_reach (h : Reach (·.depth ≤ n) low high) :
    Reach (·.depth ≤ n + 1) (indexed src low) (indexed src high) :=
  fun _ => upto_bind fun t => oneOf_reach (.cons (indexedLeft_reach h) (.cons
    ((bracket_reach h).map fun _ => by simp only [Expr.depth]; omega) .nil)) t

theorem alone_reach {rule rule' : Rule Selector} (h : Reach (·.depth ≤ n) rule rule') :
    Reach (·.depth ≤ n + 1) (alone rule) (alone rule') :=
  h.map fun _ => by simp only [Expr.depth]; omega

/-- A form of a single token nests nothing. -/
theorem token_reach {β : Type} {rule : Rule β} {f : β → Expr} (hf : ∀ b, (f b).depth = 1) :
    Reach (·.depth ≤ n + 1) (fun s => (rule s).map f) fun s => (rule s).map f := .refl fun s e he => by
  obtain ⟨b, -, rfl⟩ := map_eq_ok.mp he
  rw [hf b]
  exact Nat.le_add_left 1 n

/-- The forms read up to one level more than the expressions nested in them. -/
theorem all_reach (h : Reach (·.depth ≤ n) low high) (hclosed : Closes src high) :
    List.Forall₂ (Reach (·.depth ≤ n + 1)) (all src low) (all src high) :=
  .cons (dotted_reach h hclosed) <| .cons (indexed_reach h) <| .cons (comparison_reach h) <|
  .cons (joined_reach h _ _ _) <| .cons (alone_reach identifier_reach) <| .cons (joined_reach h _ _ _) <|
  .cons (negated_reach h) <| .cons (parenthesised_reach h) <| .cons (alone_reach star_reach) <|
  .cons (alone_reach (listOf_reach h hclosed)) <| .cons (alone_reach (hashOf_reach h hclosed)) <|
  .cons (token_reach fun _ => rfl) <| .cons (alone_reach (call_reach h hclosed)) <|
  .cons (joined_reach h _ _ _) <| .cons (token_reach fun _ => rfl) <| .cons (token_reach fun _ => rfl) .nil

end Form

namespace Expr

open Rule

/-- **Less room reads less, and no other tree that fits.** What is read with room for `n`
levels nests at most `n` deep and is read as some tree with more room; and a tree that is
read with more room is read with room for `n` levels if it nests no deeper. -/
theorem rule_reach {src : Source} {limit limit' : Nat} : ∀ {n m : Nat}, n ≤ m →
    Reach (·.depth ≤ n) (rule src limit n) (rule src limit' m)
  | 0, m, _, s => by
    have hnone : (rule src limit 0 s).toOption = Option.none := by
      unfold rule
      cases Token.bounded src "expression" s <;> rfl
    rw [hnone]
    exact .none fun e _ => Nat.not_le.mpr e.depth_pos
  | n + 1, m + 1, h, s => upto_bind fun t =>
    oneOf_reach (Form.all_reach (rule_reach (Nat.le_of_succ_le_succ h)) (rule_closes src limit' m)) t

/-- What a text is read as with a limit and with a larger one. -/
theorem parse_upto {limits limits' : Limits} (h : limits.maxDepth ≤ limits'.maxDepth) (text : String) :
    Upto (·.depth ≤ limits.maxDepth) (parse limits text).toOption (parse limits' text).toOption :=
  upto_ite (fun _ => upto_fail) fun _ => rule_reach h _

/-- **A larger limit reads what a smaller one does.** The text is read as some tree with it
too, and as the same tree just if that tree nests no deeper than the smaller limit. -/
theorem parse_of_le {limits limits' : Limits} {text : String} {e : Expr}
    (hle : limits.maxDepth ≤ limits'.maxDepth) (h : parse limits text = .ok e) :
    ∃ e', parse limits' text = .ok e' ∧ (e' = e ↔ e'.depth ≤ limits.maxDepth) := by
  have hupto := parse_upto hle text
  obtain ⟨e', he'⟩ := hupto.found e (toOption_eq_some.mpr h)
  refine ⟨e', toOption_eq_some.mp he', ?_, fun hdepth => ?_⟩
  · rintro rfl
    exact hupto.fits e' (toOption_eq_some.mpr h)
  · have hsame := toOption_eq_some.mp (hupto.same e' he' hdepth)
    exact Except.ok.inj (hsame.symm.trans h)

/-- Two levels are enough for this comparison, and four do not change it. -/
theorem parse_of_le_comparison : (⟨2⟩ : Limits).maxDepth ≤ (⟨4⟩ : Limits).maxDepth ∧
    parse ⟨2⟩ "a<b" = .ok (.binary (.compare .lt) (.selector (.identifier "a")) (.selector (.identifier "b"))) ∧
      ∃ e', parse ⟨4⟩ "a<b" = .ok e' ∧
        (e' = .binary (.compare .lt) (.selector (.identifier "a")) (.selector (.identifier "b")) ↔
          e'.depth ≤ (⟨2⟩ : Limits).maxDepth) :=
  ⟨by decide, by rfl, @parse_of_le ⟨2⟩ ⟨4⟩ _ _ (by decide) (by rfl)⟩

/-- With three levels the last three names are too many for the right side of the first
operator, and the text is cut at the second one. -/
theorem parse_or_limited :
    parse ⟨3⟩ "a||b||c||d" = .ok (.binary .or
        (.binary .or (.selector (.identifier "a")) (.selector (.identifier "b")))
        (.binary .or (.selector (.identifier "c")) (.selector (.identifier "d")))) ∧
      parse ⟨4⟩ "a||b||c||d" = .ok (.binary .or (.selector (.identifier "a"))
        (.binary .or (.selector (.identifier "b"))
          (.binary .or (.selector (.identifier "c")) (.selector (.identifier "d"))))) ∧
      parse ⟨3⟩ "a||b||c||d" ≠ parse ⟨4⟩ "a||b||c||d" := by
  have hthree : parse ⟨3⟩ "a||b||c||d" = .ok (.binary .or
      (.binary .or (.selector (.identifier "a")) (.selector (.identifier "b")))
      (.binary .or (.selector (.identifier "c")) (.selector (.identifier "d")))) := by rfl
  have hfour : parse ⟨4⟩ "a||b||c||d" = .ok (.binary .or (.selector (.identifier "a"))
      (.binary .or (.selector (.identifier "b"))
        (.binary .or (.selector (.identifier "c")) (.selector (.identifier "d"))))) := by rfl
  refine ⟨hthree, hfour, fun h => ?_⟩
  rw [hthree, hfour] at h
  cases h

/-- A tree that a text is read as with enough room is read with any limit that it keeps. -/
theorem parse_of_reads {limits : Limits} {text : String} {e : Expr} (h : Reads text.toList e)
    (hdepth : e.depth ≤ limits.maxDepth) : parse limits text = .ok e := by
  have hparse : parse ⟨max limits.maxDepth text.toList.length⟩ text = .ok e :=
    (parse_eq_read (Nat.le_max_right _ _)).mpr h
  have hle : limits.maxDepth ≤ (⟨max limits.maxDepth text.toList.length⟩ : Limits).maxDepth := Nat.le_max_left _ _
  exact toOption_eq_some.mp ((parse_upto hle text).same e (toOption_eq_some.mpr hparse) hdepth)

end Expr

end PathQuery
