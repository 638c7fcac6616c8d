/-
# What is read derives from its text

If a form makes something of a range, the whole text of the range is a phrase for
it: every character belongs to a part (`Form.all_phrase`). The expressions inside
are read by the rule that the form is given, so what is said of them is a
parameter, and a property that passes from inner expressions to phrases holds of
all that is read (`Expr.rule_induction`). To derive a tree is such a property.

Key definitions: `Form.Sound`.
Key theorems: `Rule.entries_phrase`, `Form.all_phrase`, `Expr.rule_induction`,
`Expr.parse_derives`.
-/
import PathQuery.Proofs.Locality
import PathQuery.Proofs.Grammar
import PathQuery.Proofs.JsonEnd

namespace PathQuery

open Grammar

variable {P : List Char → Expr → Prop} {src : Source} {s : Span}

/-! ### Tokens -/

namespace Token

theorem bounded_eq_ok {rule : String} {t : Span} :
    bounded src rule s = .ok t ↔ s.start < s.stop ∧ src.trim s = t := by
  unfold bounded
  by_cases hlt : s.start < s.stop
  · rw [if_pos hlt]
    exact ⟨fun h => ⟨hlt, Except.ok.inj h⟩, fun h => congrArg _ h.2⟩
  · rw [if_neg hlt]
    exact iff_of_false Rule.fail_ne_ok fun h => hlt h.1

/-- A range is a phrase if it is one without the spaces at its ends. -/
theorem bounded_phrase (part : Part) {x : part.Tree} {β : Type} {rule : String}
    {f : Span → Except Failure β} {y : β} (hs : s.stop ≤ src.size) (h : bounded src rule s >>= f = .ok y)
    (hf : ∀ t : Span, t.start < t.stop → t.stop ≤ src.size → f t = .ok y → Phrase P part (src.slice t) x) :
    Phrase P part (src.slice s) x := by
  obtain ⟨t, ht, h⟩ := bind_eq_ok.mp h
  obtain ⟨hlt, rfl⟩ := bounded_eq_ok.mp ht
  obtain ⟨before, after, hbefore, hafter, he⟩ := src.slice_trim hlt
  have hb := src.trim_bounds hlt
  rw [he]
  exact .spaced hbefore hafter (hf _ hb.2.1 (Nat.le_trans hb.2.2 hs) h)

theorem single_phrase (part : Part) {x : part.Tree} {rule : String} {c : Char} {u : Unit}
    (hx : Phrase P part [c] x) (hs : s.stop ≤ src.size) (h : single src rule c s = .ok u) :
    Phrase P part (src.slice s) x := by
  refine bounded_phrase _ hs h fun t hlt hstop h => ?_
  obtain ⟨hc, h⟩ := demand_eq_ok.mp h
  obtain ⟨hlen, -⟩ := demand_eq_ok.mp h
  simp only [Span.length] at hlen
  rw [show src.slice t = src.slice ⟨t.start, t.stop⟩ from rfl, src.slice_cons hlt hc,
    src.slice_of_le (by simp only; omega)]
  exact hx

theorem name_phrase {n : String} (hs : s.stop ≤ src.size) (h : name src s = .ok n) :
    Phrase P .name (src.slice s) n := by
  refine bounded_phrase .name hs h fun t hlt hstop h => ?_
  split at h
  · rename_i hstart
    split at h
    · cases h
    · rename_i hall
      cases h
      obtain ⟨c, hc, hstart⟩ := (Option.any_eq_true _ _).mp hstart
      have he : src.slice t = c :: src.slice ⟨t.start + 1, t.stop⟩ := src.slice_cons hlt hc
      rw [List.findIdx?_eq_none_iff, he] at hall
      rw [Source.text, he]
      refine .name hstart (List.all_eq_true.mpr fun x hx => ?_)
      simpa using hall x (List.mem_cons_of_mem _ hx)
  · cases h

theorem decodeQuoted_body {t s : List Char} {position : Nat} (h : decodeQuoted t position = .ok s) :
    QuotedBody t s := by
  fun_induction decodeQuoted t position generalizing s with
  | case1 position =>
    cases h
    exact .nil
  | case2 position => cases h
  | case3 position x1 x2 x3 x4 rest hx ih =>
    obtain ⟨s', hs, rfl⟩ := map_eq_ok.mp h
    exact .codePoint hx (ih hs)
  | case4 position x1 x2 x3 x4 rest hx => cases h
  | case5 position rest hx => cases h
  | case6 position x rest hu y hy ih =>
    obtain ⟨s', hs, rfl⟩ := map_eq_ok.mp h
    exact .escaped hy (ih hs)
  | case7 position x rest hu hy => cases h
  | case8 position c rest hc hu ih =>
    obtain ⟨s', hs, rfl⟩ := map_eq_ok.mp h
    exact .plain hu (ih hs)
  | case9 position c rest hc hu => cases h

theorem decodeRaw_body {t s : List Char} {position : Nat} (h : decodeRaw t position = .ok s) :
    RawBody t s := by
  fun_induction decodeRaw t position generalizing s with
  | case1 position =>
    cases h
    exact .nil
  | case2 position => cases h
  | case3 position x rest hx ih =>
    obtain ⟨s', hs, rfl⟩ := map_eq_ok.mp h
    exact .escaped hx (ih hs)
  | case4 position x rest hx hr ih =>
    obtain ⟨s', hs, rfl⟩ := map_eq_ok.mp h
    exact .kept hr (ih hs)
  | case5 position x rest hx hr => cases h
  | case6 position c rest hc hr ih =>
    obtain ⟨s', hs, rfl⟩ := map_eq_ok.mp h
    exact .plain hr (ih hs)
  | case7 position c rest hc hr => cases h

theorem getLast?_of_cons {c : Char} {t : List Char} (h : (c :: t).getLast? ≠ some '\\') :
    t.getLast? ≠ some '\\' := by
  intro ht
  rw [List.getLast?_cons, ht] at h
  exact h rfl

/-- A backslash at the end of a literal would be the end of its JSON text. -/
theorem decodeLiteral_body {t s : List Char} (h : decodeLiteral t = some s)
    (hlast : s.getLast? ≠ some '\\') : LiteralBody t s := by
  fun_induction decodeLiteral t generalizing s with
  | case1 =>
    cases h
    exact .nil
  | case2 =>
    cases h
    exact absurd rfl hlast
  | case3 rest ih =>
    obtain ⟨s', hs, rfl⟩ := Option.map_eq_some_iff.mp h
    exact .escaped (ih hs (getLast?_of_cons hlast))
  | case4 x rest hx ih =>
    obtain ⟨s', hs, rfl⟩ := Option.map_eq_some_iff.mp h
    exact .kept hx (ih hs (getLast?_of_cons (getLast?_of_cons hlast)))
  | case5 rest hc => cases h
  | case6 c rest hc hb ih =>
    obtain ⟨s', hs, rfl⟩ := Option.map_eq_some_iff.mp h
    exact .plain hc hb (ih hs (getLast?_of_cons hlast))

theorem quotedName_phrase {n : String} (hs : s.stop ≤ src.size) (h : quotedName src s = .ok n) :
    Phrase P .identifier (src.slice s) n := by
  refine bounded_phrase .identifier hs h fun t hlt hstop h => ?_
  obtain ⟨hopen, h⟩ := demand_eq_ok.mp h
  obtain ⟨hclose, h⟩ := guard_eq_ok.mp h
  obtain ⟨body, hbody, rfl⟩ := map_eq_ok.mp h
  have hlen : 3 ≤ t.length := Nat.le_of_not_lt fun h => hclose (.inl h)
  have hlast : src.charAt (t.stop - 1) = some '"' := Decidable.not_not.mp fun h => hclose (.inr h)
  rw [src.slice_enclosed (by omega) hopen hlast]
  refine .quoted ?_ (decodeQuoted_body hbody)
  intro hnil
  have := src.length_slice (s := t.inner) (by simp only [Span.inner]; omega)
  rw [hnil] at this
  simp only [List.length_nil, Span.length, Span.inner] at this hlen
  omega

theorem identifier_phrase {n : String} (hs : s.stop ≤ src.size) (h : identifier src s = .ok n) :
    Phrase P .identifier (src.slice s) n := by
  obtain ⟨rule, hrule, h⟩ := Rule.oneOf_eq_ok h
  rcases List.mem_cons.mp hrule with rfl | hrule
  · exact .unquoted (name_phrase hs h)
  · cases List.mem_singleton.mp hrule
    exact quotedName_phrase hs h

theorem rawString_phrase {v : String} (hs : s.stop ≤ src.size) (h : rawString src s = .ok v) :
    Phrase P .expression (src.slice s) (.raw v) := by
  refine bounded_phrase _ hs h fun t hlt hstop h => ?_
  obtain ⟨hlen, h⟩ := guard_eq_ok.mp h
  obtain ⟨hopen, h⟩ := demand_eq_ok.mp h
  obtain ⟨hclose, h⟩ := demand_eq_ok.mp h
  obtain ⟨body, hbody, rfl⟩ := map_eq_ok.mp h
  rw [src.slice_enclosed (Nat.le_of_not_lt hlen) hopen hclose]
  exact .raw (decodeRaw_body hbody)

theorem literal_phrase {v : Json} (hs : s.stop ≤ src.size) (h : literal src s = .ok v) :
    Phrase P .expression (src.slice s) (.literal v) := by
  refine bounded_phrase _ hs h fun t hlt hstop h => ?_
  obtain ⟨hlen, h⟩ := guard_eq_ok.mp h
  obtain ⟨hopen, h⟩ := demand_eq_ok.mp h
  obtain ⟨hclose, h⟩ := demand_eq_ok.mp h
  split at h
  · cases h
  · rename_i text hbody
    split at h
    · rename_i v' hv
      cases h
      rw [src.slice_enclosed (Nat.le_of_not_lt hlen) hopen hclose]
      exact .literal (decodeLiteral_body hbody (Json.read_getLast hv)) hv
    · cases h

/-- An integer between the bounds is the value of its 64 bits. -/
theorem toInt_ofInt {n : Int} (h : Int64.minValue.toInt ≤ n ∧ n ≤ Int64.maxValue.toInt) :
    (Int64.ofInt n).toInt = n := by
  rw [Int64.toInt_minValue, Int64.toInt_maxValue] at h
  exact Int64.toInt_ofInt_of_le h.1 (by omega)

theorem number_phrase {n : Int64} (hs : s.stop ≤ src.size) (h : number src s = .ok n) :
    Phrase P .number (src.slice s) n := by
  refine bounded_phrase .number hs h fun t hlt hstop h => .number ?_
  simp only at h
  cases hneg : src.charAt t.start == some '-' with
  | true =>
    have hsign := src.slice_cons hlt (beq_iff_eq.mp hneg)
    simp only [hneg, if_true] at h
    obtain ⟨hdigits, h⟩ := guard_eq_ok.mp h
    obtain ⟨hne, hall⟩ := not_or.mp hdigits
    split at h
    · rename_i hrange
      cases h
      exact ⟨_, hne ∘ List.isEmpty_iff.mpr, Decidable.not_not.mp hall, .inr ⟨hsign, toInt_ofInt hrange⟩⟩
    · cases h
  | false =>
    simp only [hneg, Bool.false_eq_true, if_false] at h
    obtain ⟨hdigits, h⟩ := guard_eq_ok.mp h
    obtain ⟨hne, hall⟩ := not_or.mp hdigits
    split at h
    · rename_i hrange
      cases h
      exact ⟨_, hne ∘ List.isEmpty_iff.mpr, Decidable.not_not.mp hall, .inl ⟨rfl, toInt_ofInt hrange⟩⟩
    · cases h

end Token

/-! ### Combinations -/

namespace Rule

variable {α β : Type} {p : Nat}

/-- A split gives its two sides and what stands between them. -/
theorem slice_firstSplit {r t : Span} {needle : List Char} {width : Nat} {left : Rule α} {right : Rule β}
    {a : α} {b : β} (hr : r.Inside t)
    (h : firstSplit t (src.findAll r needle) width left right = some (a, b)) :
    ∃ p, t.start ≤ p ∧ p + needle.length ≤ t.stop ∧ left ⟨t.start, p⟩ = .ok a ∧
      right ⟨p + width, t.stop⟩ = .ok b ∧
      src.slice t = src.slice ⟨t.start, p⟩ ++ (needle ++ src.slice ⟨p + needle.length, t.stop⟩) := by
  obtain ⟨p, hp, ha, hb⟩ := firstSplit_eq_some h
  have hbounds := src.findAll_bounds hp
  exact ⟨p, Nat.le_trans hr.1 hbounds.1, Nat.le_trans hbounds.2 hr.2, ha, hb, src.slice_of_mem_findAll hr hp⟩

/-- Entries that are cut at commas are a sequence. -/
theorem entriesFrom_phrase {part : Part} {entry : Rule part.Tree} {stop : Nat}
    (hentry : ∀ r a, r.stop ≤ src.size → entry r = .ok a → Phrase P part (src.slice r) a)
    (hs : stop ≤ src.size) : ∀ {commas : List Nat} {start : Nat} {as : List part.Tree},
    commas.Pairwise (· < ·) → (∀ c ∈ commas, start ≤ c ∧ c < stop ∧ src.charAt c = some ',') →
      entriesFrom entry stop commas start = .ok as → Phrase P (.sequence part) (src.slice ⟨start, stop⟩) as
  | [], start, as, _, _, h => by
    unfold entriesFrom at h
    split at h
    · rename_i a ha
      cases h
      exact .one (hentry _ a hs ha)
    · cases h
  | comma :: commas, start, as, hsorted, hcommas, h => by
    obtain ⟨hfirst, hsorted⟩ := List.pairwise_cons.mp hsorted
    obtain ⟨hle, hlt, hc⟩ := hcommas comma List.mem_cons_self
    unfold entriesFrom at h
    split at h
    · rename_i a ha
      split at h
      · rename_i as' has
        cases h
        have hrest := entriesFrom_phrase hentry hs hsorted
          (fun c hc => ⟨hfirst c hc, (hcommas c (List.mem_cons_of_mem _ hc)).2⟩) has
        rw [src.slice_append hle (Nat.le_of_lt hlt), src.slice_cons hlt hc]
        exact .more (hentry ⟨start, comma⟩ a (by simp only; omega) ha) hrest
      · cases h
    · exact entriesFrom_phrase hentry hs hsorted (fun c hc => hcommas c (List.mem_cons_of_mem _ hc)) h

theorem separated_phrase {part : Part} {entry : Rule part.Tree} {inner : Span} {as : List part.Tree}
    (hentry : ∀ r a, r.stop ≤ src.size → entry r = .ok a → Phrase P part (src.slice r) a)
    (hs : inner.stop ≤ src.size) (h : Separated src entry inner as) :
    Phrase P (.sequence part) (src.slice inner) as := by
  have hfound : ∀ c ∈ src.findAll inner [','], inner.start ≤ c ∧ c < inner.stop ∧ src.charAt c = some ',' := by
    intro c hc
    have hb := src.findAll_bounds hc
    have hm := ((Source.mem_findAll (by decide)).mp hc).2.2
    rw [Source.matchesAt_cons, Bool.and_eq_true, beq_iff_eq] at hm
    exact ⟨hb.1, hb.2, hm.1⟩
  cases h with
  | single _ ha => exact .one (hentry inner _ hs ha)
  | several hfirst hrest =>
    rename_i a as comma
    obtain ⟨hcomma, ha⟩ := mem_firstEntries.mp (hfirst ▸ List.mem_singleton_self (comma, a))
    obtain ⟨hle, hlt, hc⟩ := hfound comma hcomma
    have htail := entriesFrom_phrase hentry hs ((src.findAll_sorted inner [',']).filter _)
      (fun c hc => by
        obtain ⟨hmem, hgt⟩ := List.mem_filter.mp hc
        exact ⟨of_decide_eq_true hgt, (hfound c hmem).2⟩) hrest
    rw [show src.slice inner = src.slice ⟨inner.start, inner.stop⟩ from rfl,
      src.slice_append hle (Nat.le_of_lt hlt), src.slice_cons hlt hc]
    exact .more (hentry ⟨inner.start, comma⟩ a (by simp only; omega) ha) htail

/-- Entries between brackets are what a sequence between the same brackets is. -/
theorem entries_phrase (part whole : Part) {opening closing : Char} {entry : Rule part.Tree}
    {x : whole.Tree} {as : List part.Tree}
    (hentry : ∀ r a, r.stop ≤ src.size → entry r = .ok a → Phrase P part (src.slice r) a)
    (hwhole : ∀ t, Phrase P (.sequence part) t as → Phrase P whole (opening :: t ++ [closing]) x)
    (hs : s.stop ≤ src.size) (h : entries src opening closing entry s = .ok as) :
    Phrase P whole (src.slice s) x := by
  obtain ⟨hlt, hlen, hopen, hclose, hsep⟩ := entries_eq_ok.mp h
  have hb := src.trim_bounds hlt
  obtain ⟨before, after, hbefore, hafter, he⟩ := src.slice_trim hlt
  rw [he, src.slice_enclosed hlen hopen hclose]
  refine .spaced hbefore hafter (hwhole _ (separated_phrase hentry ?_ hsep))
  simp only [Span.inner]
  omega

end Rule

/-! ### Forms -/

namespace Form

open Token Rule

variable {nested : Rule Expr}

/-- What a rule for expressions reads from a range is as `P` says of the text of the range. -/
def Sound (P : List Char → Expr → Prop) (src : Source) (nested : Rule Expr) : Prop :=
  ∀ (s : Span) (e : Expr), s.stop ≤ src.size → nested s = .ok e → P (src.slice s) e

theorem joined_phrase (hn : Sound P src nested) {rule symbol : String} {op : Operator} {e : Expr}
    (hs : s.stop ≤ src.size) (h : joined src nested rule symbol op s = .ok e) (hop : op.symbol = symbol) :
    Phrase P .expression (src.slice s) e := by
  refine bounded_phrase _ hs h fun t hlt hstop h => ?_
  split at h
  · rename_i l r hsplit
    cases h
    obtain ⟨p, hp, hp', hl, hr, he⟩ := slice_firstSplit t.inner_inside hsplit
    rw [he, ← List.append_assoc, ← hop]
    exact .binary (hn ⟨t.start, p⟩ l (by simp only; omega) hl) (hn _ r hstop (by rw [hop]; exact hr))
  · cases h

theorem comparison_phrase (hn : Sound P src nested) {e : Expr} (hs : s.stop ≤ src.size)
    (h : comparison src nested s = .ok e) : Phrase P .expression (src.slice s) e := by
  refine bounded_phrase _ hs h fun t hlt hstop h => ?_
  simp only at h
  split at h
  · rename_i e' hfound
    cases h
    obtain ⟨c, -, hc⟩ := List.exists_of_findSome?_eq_some hfound
    obtain ⟨⟨l, r⟩, hsplit, rfl⟩ := Option.map_eq_some_iff.mp hc
    obtain ⟨p, hp, hp', hl, hr, he⟩ := slice_firstSplit ⟨Nat.le_refl _, Nat.le_refl _⟩ hsplit
    rw [he, ← List.append_assoc]
    change Phrase P .expression (_ ++ (Operator.compare c).symbol.toList ++ _) _
    exact .binary (hn ⟨t.start, p⟩ l (by simp only; omega) hl) (hn _ r hstop hr)
  · cases h

theorem negated_phrase (hn : Sound P src nested) {e : Expr} (hs : s.stop ≤ src.size)
    (h : negated src nested s = .ok e) : Phrase P .expression (src.slice s) e := by
  refine bounded_phrase _ hs h fun t hlt hstop h => ?_
  obtain ⟨hc, h⟩ := demand_eq_ok.mp h
  obtain ⟨e', he, rfl⟩ := map_eq_ok.mp h
  rw [show src.slice t = src.slice ⟨t.start, t.stop⟩ from rfl, src.slice_cons hlt hc]
  exact .not (hn _ e' hstop he)

theorem parenthesised_phrase (hn : Sound P src nested) {e : Expr} (hs : s.stop ≤ src.size)
    (h : parenthesised src nested s = .ok e) : Phrase P .expression (src.slice s) e := by
  refine bounded_phrase _ hs h fun t hlt hstop h => ?_
  obtain ⟨hopen, h⟩ := demand_eq_ok.mp h
  obtain ⟨hclose, h⟩ := guard_eq_ok.mp h
  obtain ⟨hlen, hclose⟩ := not_or.mp hclose
  obtain ⟨e', he, rfl⟩ := map_eq_ok.mp h
  rw [src.slice_enclosed (Nat.le_of_not_lt hlen) hopen (Decidable.not_not.mp hclose)]
  exact .paren (hn t.inner e' (Nat.le_trans (Nat.sub_le _ _) hstop) he)

/-! ### Lists, objects and calls -/

theorem listOf_phrase (hn : Sound P src nested) {x : Selector} (hs : s.stop ≤ src.size)
    (h : listOf src nested s = .ok x) : Phrase P .selector (src.slice s) x := by
  obtain ⟨es, hes, rfl⟩ := map_eq_ok.mp h
  exact entries_phrase .nested .selector (fun r a hr ha => .nested (hn r a hr ha)) (fun t ht => .list ht) hs hes

theorem keyValue_phrase (hn : Sound P src nested) {x : Entry} (hs : s.stop ≤ src.size)
    (h : keyValue src nested s = .ok x) : Phrase P .keyValue (src.slice s) x := by
  refine bounded_phrase .keyValue hs h fun t hlt hstop h => ?_
  split at h
  · rename_i k v hsplit
    cases h
    obtain ⟨p, hp, hp', hk, hv, he⟩ := slice_firstSplit t.inner_inside hsplit
    rw [he]
    exact .keyValue (identifier_phrase (s := ⟨t.start, p⟩) (by simp only; omega) hk) (hn _ v hstop hv)
  · cases h

theorem hashOf_phrase (hn : Sound P src nested) {x : Selector} (hs : s.stop ≤ src.size)
    (h : hashOf src nested s = .ok x) : Phrase P .selector (src.slice s) x := by
  obtain ⟨es, hes, rfl⟩ := map_eq_ok.mp h
  exact entries_phrase .keyValue .selector (fun r a hr ha => keyValue_phrase hn hr ha)
    (fun t ht => .hash ht) hs hes

theorem reference_phrase (hn : Sound P src nested) {e : Expr} (hs : s.stop ≤ src.size)
    (h : reference src nested s = .ok e) : Phrase P .argument (src.slice s) (.reference e) := by
  refine bounded_phrase .argument hs h fun t hlt hstop h => ?_
  obtain ⟨hc, h⟩ := demand_eq_ok.mp h
  rw [show src.slice t = src.slice ⟨t.start, t.stop⟩ from rfl, src.slice_cons hlt hc]
  exact .reference (hn _ e hstop h)

theorem argument_phrase (hn : Sound P src nested) {x : Argument} (hs : s.stop ≤ src.size)
    (h : argument src nested s = .ok x) : Phrase P .argument (src.slice s) x := by
  obtain ⟨rule, hrule, h⟩ := oneOf_eq_ok h
  rcases List.mem_cons.mp hrule with rfl | hrule
  · obtain ⟨e, he, rfl⟩ := map_eq_ok.mp h
    exact .value (hn s e hs he)
  · cases List.mem_singleton.mp hrule
    obtain ⟨e, he, rfl⟩ := map_eq_ok.mp h
    exact reference_phrase hn hs he

/-- Parentheses without arguments hold nothing but spaces. -/
theorem noArguments_text {as : List Argument} (h : noArguments src s = .ok as) :
    as = [] ∧ ∃ a t b, Blank a ∧ Blank t ∧ Blank b ∧ src.slice s = a ++ ('(' :: t ++ [')']) ++ b := by
  obtain ⟨t, ht, h⟩ := bind_eq_ok.mp h
  obtain ⟨hlt, rfl⟩ := bounded_eq_ok.mp ht
  obtain ⟨before, after, hbefore, hafter, he⟩ := src.slice_trim hlt
  generalize src.trim s = t at *
  obtain ⟨hopen, h⟩ := demand_eq_ok.mp h
  simp only at h
  have hclose := (src.afterSpaces_bounds (t.stop - (t.start + 1 + 1)) (t.start + 1)).1
  have hblank := fun p => src.charAt_of_lt_afterSpaces (t.stop - (t.start + 1 + 1)) (t.start + 1) p
  change t.start + 1 ≤ src.trimLeft ⟨t.start + 1, t.stop⟩ at hclose
  change ∀ p, t.start + 1 ≤ p → p < src.trimLeft ⟨t.start + 1, t.stop⟩ → _ at hblank
  generalize src.trimLeft ⟨t.start + 1, t.stop⟩ = close at *
  obtain ⟨hc, h⟩ := guard_eq_ok.mp h
  obtain ⟨hle, hc⟩ := not_or.mp hc
  obtain ⟨hend, h⟩ := guard_eq_ok.mp h
  cases h
  have hend : close = t.stop - 1 := by omega
  rw [hend] at hc hblank
  rw [src.slice_enclosed (by simp only [Span.length]; omega) hopen (Decidable.not_not.mp hc)] at he
  refine ⟨rfl, before, src.slice t.inner, after, hbefore, fun c hmem => ?_, hafter, he⟩
  obtain ⟨p, hp, hlt, he⟩ := Source.mem_slice hmem
  rw [hblank p hp hlt] at he
  exact (Option.some.inj he).symm

theorem noArguments_phrase {as : List Argument} (h : noArguments src s = .ok as) :
    Phrase P .arguments (src.slice s) as := by
  obtain ⟨rfl, a, t, b, ha, ht, hb, he⟩ := noArguments_text h
  rw [he]
  exact .spaced ha hb (.noArguments ht)

theorem arguments_phrase (hn : Sound P src nested) {as : List Argument} (hs : s.stop ≤ src.size)
    (h : arguments src nested s = .ok as) : Phrase P .arguments (src.slice s) as := by
  obtain ⟨rule, hrule, h⟩ := oneOf_eq_ok h
  rcases List.mem_cons.mp hrule with rfl | hrule
  · exact noArguments_phrase h
  · cases List.mem_singleton.mp hrule
    exact entries_phrase .argument .arguments
      (fun r a hr ha => argument_phrase hn hr ha) (fun t ht => .arguments ht) hs h

/-- The name of a function is a name. -/
theorem functionName_eq_ok {paren : Nat} {f : String} :
    functionName src s paren = .ok f ↔ name src ⟨s.start, paren⟩ = .ok f :=
  mapError_eq_ok

theorem call_phrase (hn : Sound P src nested) {x : Selector} (hs : s.stop ≤ src.size)
    (h : call src nested s = .ok x) : Phrase P .selector (src.slice s) x := by
  refine bounded_phrase _ hs h fun t hlt hstop h => ?_
  obtain ⟨-, h⟩ := guard_eq_ok.mp h
  obtain ⟨f, hf, h⟩ := bind_eq_ok.mp h
  obtain ⟨as, has, rfl⟩ := map_eq_ok.mp h
  have hb : t.start ≤ (src.findChar t '(').getD t.start ∧ (src.findChar t '(').getD t.start ≤ t.stop := by
    cases hfind : src.findChar t '(' with
    | none => exact ⟨Nat.le_refl _, Nat.le_of_lt hlt⟩
    | some p => exact ⟨(src.findChar_bounds hfind).1, Nat.le_of_lt (src.findChar_bounds hfind).2⟩
  generalize (src.findChar t '(').getD t.start = paren at *
  rw [show src.slice t = src.slice ⟨t.start, t.stop⟩ from rfl, src.slice_append hb.1 hb.2]
  exact .call (name_phrase (s := ⟨t.start, paren⟩) (Nat.le_trans hb.2 hstop) (functionName_eq_ok.mp hf))
    (arguments_phrase hn hstop has)

/-! ### Dots and brackets -/

theorem star_phrase {x : Selector} (hs : s.stop ≤ src.size) (h : star src s = .ok x) :
    Phrase P .selector (src.slice s) x := by
  obtain ⟨u, hu, rfl⟩ := map_eq_ok.mp h
  exact single_phrase .selector (.all .star) hs hu

theorem identifier_phrase {x : Selector} (hs : s.stop ≤ src.size) (h : identifier src s = .ok x) :
    Phrase P .selector (src.slice s) x := by
  obtain ⟨n, hn, rfl⟩ := map_eq_ok.mp h
  exact .named (Token.identifier_phrase hs hn)

theorem afterDot_phrase (hn : Sound P src nested) {x : Selector} (hs : s.stop ≤ src.size)
    (h : afterDot src nested s = .ok x) : Phrase P .selector (src.slice s) x := by
  obtain ⟨rule, hrule, h⟩ := oneOf_eq_ok h
  simp only [List.mem_cons, List.not_mem_nil, or_false] at hrule
  rcases hrule with rfl | rfl | rfl | rfl | rfl
  · exact identifier_phrase hs h
  · exact listOf_phrase hn hs h
  · exact hashOf_phrase hn hs h
  · exact call_phrase hn hs h
  · exact star_phrase hs h

theorem dotted_phrase (hn : Sound P src nested) {e : Expr} (hs : s.stop ≤ src.size)
    (h : dotted src nested s = .ok e) : Phrase P .expression (src.slice s) e := by
  refine bounded_phrase _ hs h fun t hlt hstop h => ?_
  split at h
  · rename_i l x hsplit
    cases h
    obtain ⟨p, hp, hp', hl, hx, he⟩ := slice_firstSplit t.inner_inside hsplit
    rw [he]
    exact .dot (hn ⟨t.start, p⟩ l (by simp only; omega) hl) (afterDot_phrase hn hstop hx)
  · cases h

theorem sliceBound_phrase {b : Option Int64} (hs : s.stop ≤ src.size) (h : sliceBound src s = .ok b) :
    Phrase P .bound (src.slice s) b := by
  unfold sliceBound at h
  split at h
  · rename_i hall
    cases h
    exact .noBound fun c hc => beq_iff_eq.mp (List.all_eq_true.mp hall c hc)
  · obtain ⟨n, hn, rfl⟩ := map_eq_ok.mp h
    exact .bound (number_phrase hs hn)

theorem slice_phrase {x : Slice} (hs : s.stop ≤ src.size) (h : slice src s = .ok x) :
    Phrase P .slice (src.slice s) x := by
  refine bounded_phrase .slice hs h fun t hlt hstop h => ?_
  split at h
  · cases h
  · rename_i first hfirst
    have hb := src.findChar_bounds hfirst
    obtain ⟨a, ha, h⟩ := bind_eq_ok.mp h
    obtain ⟨b, hb', h⟩ := bind_eq_ok.mp h
    obtain ⟨c, hc, h⟩ := bind_eq_ok.mp h
    cases h
    have ha := sliceBound_phrase (P := P) (s := ⟨t.start, first⟩) (by simp only; omega) ha
    rw [show src.slice t = src.slice ⟨t.start, t.stop⟩ from rfl,
      src.slice_append hb.1 (Nat.le_of_lt hb.2), src.slice_cons hb.2 (src.charAt_of_findChar hfirst)]
    cases hsecond : src.findChar ⟨first + 1, t.stop⟩ ':' with
    | none =>
      simp only [hsecond, Option.map_none, Option.getD_none] at hb' hc
      unfold sliceBound at hc
      rw [if_pos (by rw [src.slice_of_le (Nat.le_refl _)]; rfl)] at hc
      cases hc
      exact .twoBounds ha (sliceBound_phrase (s := ⟨first + 1, t.stop⟩) hstop hb')
    | some second =>
      have hsec := src.findChar_bounds hsecond
      simp only at hsec
      simp only [hsecond, Option.map_some, Option.getD_some] at hb' hc
      rw [src.slice_append hsec.1 (Nat.le_of_lt hsec.2), src.slice_cons hsec.2 (src.charAt_of_findChar hsecond)]
      exact .threeBounds ha (sliceBound_phrase (s := ⟨first + 1, second⟩) (by simp only; omega) hb')
        (sliceBound_phrase (s := ⟨second + 1, t.stop⟩) hstop hc)

theorem bracketContent_phrase {x : Bracket} (hs : s.stop ≤ src.size)
    (h : bracketContent src s = .ok x) : Phrase P .bracket ('[' :: src.slice s ++ [']']) x := by
  obtain ⟨rule, hrule, h⟩ := oneOf_eq_ok h
  simp only [List.mem_cons, List.not_mem_nil, or_false] at hrule
  rcases hrule with rfl | rfl | rfl
  · obtain ⟨n, hn, rfl⟩ := map_eq_ok.mp h
    exact .place (number_phrase hs hn)
  · obtain ⟨u, hu, rfl⟩ := map_eq_ok.mp h
    exact .every (single_phrase .star .star hs hu)
  · obtain ⟨b, hb, rfl⟩ := map_eq_ok.mp h
    exact .slice (slice_phrase hs hb)

theorem bracket_phrase (hn : Sound P src nested) {x : Bracket} (hs : s.stop ≤ src.size)
    (h : bracket src nested s = .ok x) : Phrase P .bracket (src.slice s) x := by
  refine bounded_phrase .bracket hs h fun t hlt hstop h => ?_
  obtain ⟨hopen, h⟩ := demand_eq_ok.mp h
  obtain ⟨hclose, h⟩ := guard_eq_ok.mp h
  obtain ⟨hlen, hclose⟩ := not_or.mp hclose
  rw [src.slice_enclosed (Nat.le_of_not_lt hlen) hopen (Decidable.not_not.mp hclose)]
  split at h
  · rename_i htwo
    cases h
    rw [src.slice_of_le (s := t.inner) (by simp only [Span.inner, Span.length] at *; omega)]
    exact .flatten
  · rename_i htwo
    have hthree : t.start + 1 < t.stop - 1 := by
      simp only [Span.length] at hlen htwo
      omega
    split at h
    · rename_i hmark
      obtain ⟨e, he, rfl⟩ := map_eq_ok.mp h
      rw [Span.inner, src.slice_cons hthree hmark]
      exact .filter (hn ⟨t.start + 2, t.stop - 1⟩ e (Nat.le_trans (Nat.sub_le _ _) hstop) he)
    · exact bracketContent_phrase (Nat.le_trans (Nat.sub_le _ _) hstop) h

theorem indexedLeft_phrase (hn : Sound P src nested) {e : Expr} (hs : s.stop ≤ src.size)
    (h : indexedLeft src nested s = .ok e) : Phrase P .expression (src.slice s) e := by
  refine bounded_phrase _ hs h fun t hlt hstop h => ?_
  split at h
  · rename_i l b hsplit
    cases h
    obtain ⟨p, hp, hp', hl, hb, -⟩ := slice_firstSplit t.inner_inside hsplit
    simp only [List.length_singleton] at hp'
    rw [show src.slice t = src.slice ⟨t.start, t.stop⟩ from rfl,
      src.slice_append hp (by omega)]
    exact .indexOf (hn ⟨t.start, p⟩ l (by simp only; omega) hl) (bracket_phrase hn hstop hb)
  · cases h

theorem indexed_phrase (hn : Sound P src nested) {e : Expr} (hs : s.stop ≤ src.size)
    (h : indexed src nested s = .ok e) : Phrase P .expression (src.slice s) e := by
  refine bounded_phrase _ hs h fun t hlt hstop h => ?_
  obtain ⟨rule, hrule, h⟩ := oneOf_eq_ok h
  rcases List.mem_cons.mp hrule with rfl | hrule
  · exact indexedLeft_phrase hn hstop h
  · cases List.mem_singleton.mp hrule
    obtain ⟨b, hb, rfl⟩ := map_eq_ok.mp h
    exact .index (bracket_phrase hn hstop hb)

/-! ### All of them -/

theorem alone_phrase {rule : Rule Selector} {e : Expr} (h : alone rule s = .ok e)
    (hrule : ∀ x, rule s = .ok x → Phrase P .selector (src.slice s) x) :
    Phrase P .expression (src.slice s) e := by
  obtain ⟨x, hx, rfl⟩ := map_eq_ok.mp h
  exact .alone (hrule x hx)

/-- **What a form reads is a phrase**, if what it reads inside is as `P` says. -/
theorem all_phrase (hn : Sound P src nested) {rule : Rule Expr} {e : Expr} (hrule : rule ∈ all src nested)
    (hs : s.stop ≤ src.size) (h : rule s = .ok e) : Phrase P .expression (src.slice s) e := by
  simp only [all, List.mem_cons, List.not_mem_nil, or_false] at hrule
  rcases hrule with rfl | rfl | rfl | rfl | rfl | rfl | rfl | rfl | rfl | rfl | rfl | rfl | rfl | rfl | rfl | rfl
  · exact dotted_phrase hn hs h
  · exact indexed_phrase hn hs h
  · exact comparison_phrase hn hs h
  · exact joined_phrase hn hs h rfl
  · exact alone_phrase h fun x => identifier_phrase hs
  · exact joined_phrase hn hs h rfl
  · exact negated_phrase hn hs h
  · exact parenthesised_phrase hn hs h
  · exact alone_phrase h fun x => star_phrase hs
  · exact alone_phrase h fun x => listOf_phrase hn hs
  · exact alone_phrase h fun x => hashOf_phrase hn hs
  · obtain ⟨v, hv, rfl⟩ := map_eq_ok.mp h
    exact literal_phrase hs hv
  · exact alone_phrase h fun x => call_phrase hn hs
  · exact joined_phrase hn hs h rfl
  · obtain ⟨v, hv, rfl⟩ := map_eq_ok.mp h
    exact rawString_phrase hs hv
  · obtain ⟨u, hu, rfl⟩ := map_eq_ok.mp h
    exact single_phrase .expression .current hs hu

end Form

/-! ### Expressions -/

namespace Expr

/-- **What holds of all that is read.** If a phrase is as `P` says whenever the
expressions inside it are, then what is read from a range is, for any budget. -/
theorem rule_induction (hP : ∀ t e, Phrase P .expression t e → P t e) (src : Source) (limit : Nat) :
    ∀ budget, Form.Sound P src (rule src limit budget)
  | 0, s, e, hs, h => hP _ _ (Token.bounded_phrase _ hs h fun _ _ _ h => by cases h)
  | budget + 1, s, e, hs, h => hP _ _ (Token.bounded_phrase _ hs h fun t _ hstop h => by
    obtain ⟨form, hform, h⟩ := Rule.oneOf_eq_ok h
    exact Form.all_phrase (rule_induction hP src limit budget) hform hstop h)

/-- **A text that is read derives the tree that is made of it.** -/
theorem parse_derives {limits : Limits} {text : String} {e : Expr} (h : parse limits text = .ok e) :
    Derives text.toList e := by
  unfold parse at h
  simp only at h
  split at h
  · cases h
  · have := rule_induction (P := Derives) (fun _ _ => .intro) _ _ _ _ _ (Nat.le_refl _) h
    rwa [Source.slice_whole] at this

/-- Spaces at both ends, and a bracket after a call. -/
theorem parse_derives_spaced :
    parse ⟨4⟩ " f( )[1:] " = .ok (.indexOf (.selector (.call "f" [])) (.slice ⟨some 1, none, none⟩)) ∧
      Derives " f( )[1:] ".toList (.indexOf (.selector (.call "f" [])) (.slice ⟨some 1, none, none⟩)) :=
  ⟨by rfl, parse_derives (show parse ⟨4⟩ _ = _ by rfl)⟩

end Expr

end PathQuery
