/-
# Integers and bounds between square brackets

An integer between square brackets, with any spaces around it, is read just if it has 64 bits
to fit in, whatever the limit: no other form and no other kind of bracket begins as it does
and holds nothing but signs, digits and spaces (`Expr.not_reads_numeric`). A search with it
takes the item that it counts off from the front of an array, or from the end if it is
negative.

Between colons the same integers are the bounds of a slice, and nothing but spaces is no
bound. The spaces at the ends of the bracket belong to the outer bounds, so the outer bounds
are read with fewer spaces than are written (`Form.slice_of_middle`).

Key definitions: `IntegerText`, `IsBound`, `bracketed`.
Key theorems: `Form.number_iff`, `Form.bracketContent_iff`, `Expr.reads_bracketed_iff`,
`Form.slice_of_two`, `Form.slice_of_three`, `Expr.parse_bracketed`.
-/
import PathQuery.Query
import PathQuery.Proofs.Limit
import PathQuery.Proofs.Surroundings
import PathQuery.Proofs.Written

namespace PathQuery

open Grammar

/-! ### Integers as they are written -/

/-- An integer as it is written: a minus sign or none, and one or more digits. -/
structure IntegerText where
  negative : Bool
  digits : List Char
  digits_ne_nil : digits ≠ []
  digits_isDigit : digits.all Char.isDigit = true

/-- A character that integers are written with, or a space between them. -/
def isNumeric (c : Char) : Bool := c == ' ' || c == '-' || c.isDigit

/-- A text between square brackets. -/
def bracketed (t : List Char) : String := String.ofList ('[' :: t ++ [']'])

namespace IntegerText

/-- The sign and the digits. -/
def chars (n : IntegerText) : List Char := if n.negative then '-' :: n.digits else n.digits

/-- The integer that is written. -/
def value (n : IntegerText) : Int :=
  if n.negative then -(CharClass.natOfDigits n.digits : Int) else CharClass.natOfDigits n.digits

/-- Whether it is an integer of 64 bits. -/
def Fits (n : IntegerText) : Prop := Int64.minValue.toInt ≤ n.value ∧ n.value ≤ Int64.maxValue.toInt

/-- The integer with spaces around it. -/
def padded (n : IntegerText) (before after : Nat) : List Char :=
  List.replicate before ' ' ++ n.chars ++ List.replicate after ' '

theorem toInt_ofInt {n : IntegerText} (h : n.Fits) : (Int64.ofInt n.value).toInt = n.value :=
  Token.toInt_ofInt h

theorem fits_of_toInt {n : IntegerText} {k : Int64} (h : k.toInt = n.value) : n.Fits :=
  ⟨h ▸ k.minValue_le_toInt, h ▸ k.toInt_le⟩

theorem isNumber {n : IntegerText} {k : Int64} (h : k.toInt = n.value) : IsNumber n.chars k := by
  refine ⟨n.digits, n.digits_ne_nil, n.digits_isDigit, ?_⟩
  unfold value at h
  unfold chars
  cases hsign : n.negative with
  | false =>
    rw [hsign] at h
    exact .inl ⟨rfl, h⟩
  | true =>
    rw [hsign] at h
    exact .inr ⟨rfl, h⟩

end IntegerText

/-- The bounds of a slice as they are written: an integer with spaces around it, or no bound
and spaces alone. -/
inductive IsBound : List Char → Option Int64 → Prop
  | blank (count : Nat) : IsBound (List.replicate count ' ') none
  | number (before after : Nat) {t : List Char} {n : Int64} : IsNumber t n →
      IsBound (List.replicate before ' ' ++ t ++ List.replicate after ' ') (some n)

/-! ### Signs, digits and spaces -/

theorem isNumeric_of_blank {a : List Char} (ha : Blank a) : ∀ c ∈ a, isNumeric c = true := fun c hc => by
  rw [ha c hc]
  rfl

theorem isNumeric_digits {t : List Char} (h : t.all Char.isDigit = true) : ∀ c ∈ t, isNumeric c = true := fun c hc => by
  rw [isNumeric, List.all_eq_true.mp h c hc, Bool.or_true]

theorem Grammar.IsNumber.numeric {t : List Char} {n : Int64} (h : IsNumber t n) : ∀ c ∈ t, isNumeric c = true := by
  obtain ⟨digits, -, hall, ⟨rfl, -⟩ | ⟨rfl, -⟩⟩ := h
  · exact isNumeric_digits hall
  · exact List.forall_mem_cons.mpr ⟨rfl, isNumeric_digits hall⟩

/-- There are no spaces at the ends of an integer. -/
theorem tight_digits {t : List Char} (hne : t ≠ []) (h : t.all Char.isDigit = true) : Tight t ∧ Tight ('-' :: t) := by
  have hspace : ∀ c ∈ t, c ≠ ' ' := by
    rintro c hc rfl
    exact absurd (List.all_eq_true.mp h ' ' hc) (by decide)
  have hdigits : Tight t :=
    ⟨hne, fun h => hspace _ (List.mem_of_mem_head? h) rfl, fun h => hspace _ (List.mem_of_getLast? h) rfl⟩
  exact ⟨hdigits, (show Tight ['-'] from ⟨nofun, by decide, by decide⟩).join [] hdigits⟩

theorem Grammar.IsNumber.tight {t : List Char} {n : Int64} (h : IsNumber t n) : Tight t := by
  obtain ⟨digits, hne, hall, ⟨rfl, -⟩ | ⟨rfl, -⟩⟩ := h
  · exact (tight_digits hne hall).1
  · exact (tight_digits hne hall).2

theorem IntegerText.tight (n : IntegerText) : Tight n.chars := by
  unfold IntegerText.chars
  cases n.negative with
  | false => exact (tight_digits n.digits_ne_nil n.digits_isDigit).1
  | true => exact (tight_digits n.digits_ne_nil n.digits_isDigit).2

theorem IntegerText.numeric (n : IntegerText) (before after : Nat) :
    ∀ c ∈ n.padded before after, isNumeric c = true := by
  have hchars : ∀ c ∈ n.chars, isNumeric c = true := by
    unfold IntegerText.chars
    cases n.negative with
    | false => exact isNumeric_digits n.digits_isDigit
    | true => exact List.forall_mem_cons.mpr ⟨rfl, isNumeric_digits n.digits_isDigit⟩
  exact List.forall_mem_append.mpr ⟨List.forall_mem_append.mpr ⟨isNumeric_of_blank (blank_spaces before), hchars⟩,
    isNumeric_of_blank (blank_spaces after)⟩

/-- What stands around a tight text may begin and end with no space. -/
theorem Tight.around {t m v : List Char} (hm : Tight m) (ht : t.head? ≠ some ' ')
    (hv : v.getLast? ≠ some ' ') : Tight (t ++ m ++ v) where
  ne_nil h := hm.ne_nil (List.append_eq_nil_iff.mp (List.append_eq_nil_iff.mp h).1).2
  head := by
    cases t with
    | nil =>
      rw [List.nil_append, List.head?_append_of_ne_nil _ hm.ne_nil]
      exact hm.head
    | cons c t => exact ht
  last := by
    rw [List.getLast?_append]
    cases hlast : v.getLast? with
    | none =>
      rw [Option.none_or, List.getLast?_append_of_ne_nil _ hm.ne_nil]
      exact hm.last
    | some c =>
      rw [Option.some_or, ← hlast]
      exact hv

theorem IsBound.numeric {t : List Char} {x : Option Int64} (h : IsBound t x) : ∀ c ∈ t, isNumeric c = true := by
  cases h with
  | blank count => exact isNumeric_of_blank (blank_spaces count)
  | number before after hn =>
    exact List.forall_mem_append.mpr ⟨List.forall_mem_append.mpr ⟨isNumeric_of_blank (blank_spaces before), hn.numeric⟩,
      isNumeric_of_blank (blank_spaces after)⟩

theorem IsBound.not_mem {t : List Char} {x : Option Int64} (h : IsBound t x) {c : Char} (hc : isNumeric c = false) :
    c ∉ t := fun hmem => Bool.eq_false_iff.mp hc (h.numeric c hmem)

theorem isNumeric_cases {c : Char} (h : isNumeric c = true) : c = ' ' ∨ c = '-' ∨ c.isDigit = true := by
  simpa only [isNumeric, Bool.or_eq_true, beq_iff_eq, or_assoc] using h

theorem isPlain_of_isNumeric {c : Char} (h : isNumeric c = true) : isPlain c = true := by
  rcases isNumeric_cases h with rfl | rfl | hdigit
  · rfl
  · rfl
  · refine isPlain_of_isNameChar ?_
    simp only [CharClass.isNameChar, Char.isAlphanum, hdigit, Bool.or_true, Bool.true_or]

theorem not_isNameStart_of_isNumeric {c : Char} (h : isNumeric c = true) : CharClass.isNameStart c = false := by
  rcases isNumeric_cases h with rfl | rfl | hdigit
  · rfl
  · rfl
  · have hcode : c.val ≤ 57 := of_decide_eq_true (Bool.and_eq_true_iff.mp hdigit).2
    refine Bool.eq_false_iff.mpr fun hstart => ?_
    rcases Bool.or_eq_true_iff.mp hstart with halpha | hc
    · have hletter : (65 : UInt32) ≤ c.val := by
        rcases Bool.or_eq_true_iff.mp halpha with hupper | hlower
        · exact (of_decide_eq_true hupper).1
        · have hlow : (97 : UInt32) ≤ c.val := of_decide_eq_true (Bool.and_eq_true_iff.mp hlower).1
          exact UInt32.le_trans (by decide) hlow
      exact absurd (UInt32.le_trans hletter hcode) (by decide)
    · rw [beq_iff_eq.mp hc] at hcode
      exact absurd hcode (by decide)

/-- A character that integers are written with begins no form. -/
theorem Form.heads_isNumeric {c : Char} (h : isNumeric c = true) (i : Nat) : heads i c = false := by
  refine Bool.eq_false_iff.mpr fun hheads => ?_
  have hname := Bool.eq_false_iff.mp (not_isNameStart_of_isNumeric h)
  unfold heads at hheads
  split at hheads
  case h_2 =>
    rcases Bool.or_eq_true_iff.mp hheads with hc | hc
    · exact hname hc
    · rw [beq_iff_eq.mp hc] at h
      exact absurd h (by decide)
  case h_9 => exact hname hheads
  case h_12 => cases hheads
  all_goals
    rw [beq_iff_eq.mp hheads] at h
    exact absurd h (by decide)

theorem not_joint_of_isNumeric {c : Char} (h : isNumeric c = true) : c ∉ joints := by
  intro hc
  simp only [joints, Operator.heads, List.mem_cons, List.not_mem_nil, or_false] at hc
  rcases hc with rfl | rfl | rfl | rfl | rfl | rfl | rfl | rfl <;> exact absurd h (by decide)

/-! ### What tells the contents of a bracket apart -/

/-- What a text holds, or holds alone, if it stands for a part between square brackets. -/
def Grammar.Part.Marked : Part → List Char → Prop
  | .number, t => ∀ c ∈ t, isNumeric c = true
  | .star, t => '*' ∈ t
  | .slice, t => ':' ∈ t
  | _, _ => True

theorem Grammar.Part.Marked.pad {part : Part} {a t b : List Char} (h : part.Marked t) (ha : Blank a) (hb : Blank b) :
    part.Marked (a ++ t ++ b) := by
  cases part with
  | number =>
    exact List.forall_mem_append.mpr ⟨List.forall_mem_append.mpr ⟨isNumeric_of_blank ha, h⟩, isNumeric_of_blank hb⟩
  | star => exact List.mem_append_left b (List.mem_append_right a h)
  | slice => exact List.mem_append_left b (List.mem_append_right a h)
  | _ => trivial

theorem Grammar.Phrase.marked {P : List Char → Expr → Prop} {part : Part} {t : List Char} {x : part.Tree}
    (h : Phrase P part t x) : part.Marked t := by
  induction h with
  | spaced ha hb _ ih => exact ih.pad ha hb
  | number h => exact h.numeric
  | star => exact List.mem_singleton_self '*'
  | twoBounds => exact List.mem_append_right _ List.mem_cons_self
  | threeBounds => exact List.mem_append_right _ List.mem_cons_self
  | _ => trivial

/-! ### One integer -/

namespace Form

open PathQuery.Expr (Reads)

theorem number_local : Reader.Local Token.number := Token.number_shift

theorem number_trims : Reader.Trims Token.number := Reader.trims_bounded

/-- **An integer is read just if it has 64 bits to fit in**, and as itself. -/
theorem number_iff (n : IntegerText) {k : Int64} : Reader.Accepts Token.number n.chars k ↔ k.toInt = n.value := by
  refine ⟨fun h => ?_, fun h => number_of_isNumber (IntegerText.isNumber h)⟩
  have h := (accepts_bounded n.tight).mp h
  obtain ⟨d, ds, hdigits⟩ := List.exists_cons_of_ne_nil n.digits_ne_nil
  unfold IntegerText.chars at h
  unfold IntegerText.value
  cases hsign : n.negative with
  | false =>
    have hd : (some d == some '-') = false := by
      refine beq_eq_false_iff_ne.mpr fun hd => ?_
      have hall := n.digits_isDigit
      rw [hdigits, Option.some.inj hd] at hall
      exact absurd hall (by simp)
    simp only [hsign, Bool.false_eq_true, if_false, hdigits, charAt_head, hd, Source.slice_whole_ofChars] at h ⊢
    obtain ⟨-, h⟩ := guard_eq_ok.mp h
    split at h
    · rename_i hrange
      rw [← Except.ok.inj h, Token.toInt_ofInt hrange]
    · cases h
  | true =>
    have hslice : (Source.ofChars ('-' :: d :: ds)).slice ⟨0 + 1, ('-' :: d :: ds).length⟩ = d :: ds := by
      rw [Source.slice_ofChars]
      simp
    simp only [hsign, if_true, hdigits, charAt_head, beq_self_eq_true, hslice] at h ⊢
    obtain ⟨-, h⟩ := guard_eq_ok.mp h
    split at h
    · rename_i hrange
      rw [← Except.ok.inj h, Token.toInt_ofInt hrange]
    · cases h

theorem number_numeric {t : List Char} {n : Int64} (h : Reader.Accepts Token.number t n) :
    ∀ c ∈ t, isNumeric c = true := by
  have hphrase := Token.number_phrase (P := Reads) (Nat.le_refl _) h
  rw [Source.slice_whole_ofChars] at hphrase
  exact hphrase.marked

theorem star_mem {t : List Char} {b : Bracket}
    (h : Reader.Accepts (fun src => mark src "star-expression" '*' Bracket.star) t b) : '*' ∈ t := by
  obtain ⟨u, hu, -⟩ := map_eq_ok.mp h
  have hphrase := Token.single_phrase (P := Reads) .star .star (Nat.le_refl _) hu
  rw [Source.slice_whole_ofChars] at hphrase
  exact hphrase.marked

theorem slice_mem {t : List Char} {s : Slice} (h : Reader.Accepts slice t s) : ':' ∈ t := by
  have hphrase := slice_phrase (P := Reads) (Nat.le_refl _) h
  rw [Source.slice_whole_ofChars] at hphrase
  exact hphrase.marked

/-- What stands between square brackets is a number, a star or a slice. -/
theorem bracketContent_firstOf {t : List Char} {b : Bracket} : Reader.Accepts bracketContent t b ↔
    FirstOf t [fun src s => (Token.number src s).map Bracket.number,
      fun src => mark src "star-expression" '*' .star, fun src s => (slice src s).map .slice] b := by
  rw [← Rule.oneOf_iff (n := "bracket-specifier-content")]
  exact Iff.rfl

/-- The content of a bracket with nothing but an integer in it is a number, and only that. -/
theorem bracketContent_iff (n : IntegerText) (before after : Nat) {b : Bracket} :
    Reader.Accepts bracketContent (n.padded before after) b ↔ ∃ k : Int64, k.toInt = n.value ∧ b = .number k := by
  have hnumber : ∀ k, Reader.Accepts Token.number (n.padded before after) k ↔ k.toInt = n.value := fun k =>
    (number_trims.accepts_pad number_local (blank_spaces before) (blank_spaces after) n.tight).trans (number_iff n)
  have hnumeric := n.numeric before after
  rw [bracketContent_firstOf]
  constructor
  · rintro (h | ⟨-, h | ⟨-, h | ⟨-, h⟩⟩⟩)
    · obtain ⟨k, hk, rfl⟩ := map_eq_ok.mp h
      exact ⟨k, (hnumber k).mp hk, rfl⟩
    · exact absurd (hnumeric '*' (star_mem h)) (by decide)
    · obtain ⟨x, hx, -⟩ := map_eq_ok.mp h
      exact absurd (hnumeric ':' (slice_mem hx)) (by decide)
    · cases h
  · rintro ⟨k, hk, rfl⟩
    exact .here (map_eq_ok.mpr ⟨k, (hnumber k).mpr hk, rfl⟩)

/-- What is read as a slice is read as nothing else between square brackets, unless it holds a star. -/
theorem bracketContent_of_slice {t : List Char} {s : Slice} (h : Reader.Accepts slice t s) (hstar : '*' ∉ t) :
    Reader.Accepts bracketContent t (.slice s) := by
  refine bracketContent_firstOf.mpr (.later (fun b hb => ?_) (.later (fun b hb => hstar (star_mem hb))
    (.here (map_eq_ok.mpr ⟨s, h, rfl⟩))))
  obtain ⟨n, hn, -⟩ := map_eq_ok.mp hb
  exact absurd (number_numeric hn ':' (slice_mem h)) (by decide)

/-! ### Bounds and colons -/

section

variable {a b t u v : List Char} {x y z : Option Int64}

theorem sliceBound_local : Reader.Local sliceBound := sliceBound_shift

theorem slice_local : Reader.Local slice := slice_shift

theorem slice_trims : Reader.Trims slice := Reader.trims_bounded

/-- Nothing but spaces is no bound. -/
theorem sliceBound_blank (ht : Blank t) : Reader.Accepts sliceBound t x ↔ x = none := by
  have hall : ((Source.ofChars t).slice ⟨0, t.length⟩).all (· == ' ') = true := by
    rw [Source.slice_whole_ofChars, List.all_eq_true]
    exact fun c hc => beq_iff_eq.mpr (ht c hc)
  unfold Reader.Accepts sliceBound
  rw [if_pos hall]
  exact ⟨fun h => (Except.ok.inj h).symm, fun h => congrArg _ h.symm⟩

/-- Anything else is a number. -/
theorem sliceBound_core (ha : Blank a) (ht : Tight t) (hb : Blank b) :
    Reader.Accepts sliceBound (a ++ t ++ b) x ↔ ∃ n, Reader.Accepts Token.number t n ∧ x = some n := by
  have hall : ¬ ((Source.ofChars (a ++ t ++ b)).slice ⟨0, (a ++ t ++ b).length⟩).all (· == ' ') = true := by
    rw [Source.slice_whole_ofChars, List.all_eq_true]
    intro hall
    obtain ⟨c, u, rfl⟩ := List.exists_cons_of_ne_nil ht.ne_nil
    have hc := beq_iff_eq.mp (hall c (List.mem_append_left b (List.mem_append_right a List.mem_cons_self)))
    exact ht.head (congrArg some hc)
  have hpad := fun n => number_trims.accepts_pad number_local (x := n) ha hb ht
  simp only [← hpad]
  unfold Reader.Accepts sliceBound
  rw [if_neg hall]
  exact map_eq_ok.trans (exists_congr fun n => and_congr_right fun _ => eq_comm)

/-- Spaces around a bound make no difference. -/
theorem sliceBound_pad (ha : Blank a) (hb : Blank b) :
    Reader.Accepts sliceBound (a ++ t ++ b) x ↔ Reader.Accepts sliceBound t x := by
  by_cases ht : ∃ c ∈ t, c ≠ ' '
  · obtain ⟨p, u, q, rfl, hp, hq, hu⟩ := Tight.exists_core ht
    have hassoc : a ++ (p ++ u ++ q) ++ b = a ++ p ++ u ++ (q ++ b) := by simp only [List.append_assoc]
    rw [sliceBound_core hp hu hq, hassoc,
      sliceBound_core (List.forall_mem_append.mpr ⟨ha, hp⟩) hu (List.forall_mem_append.mpr ⟨hq, hb⟩)]
  · have hblank : Blank t := fun c hc => Decidable.not_not.mp fun hne => ht ⟨c, hc, hne⟩
    rw [sliceBound_blank hblank, sliceBound_blank]
    exact List.forall_mem_append.mpr ⟨List.forall_mem_append.mpr ⟨ha, hblank⟩, hb⟩

/-- **A bound is read as what it says.** -/
theorem sliceBound_of_isBound (h : IsBound t x) : Reader.Accepts sliceBound t x := by
  cases h with
  | blank count => exact (sliceBound_blank (blank_spaces count)).mpr rfl
  | number before after hn =>
    exact (sliceBound_core (blank_spaces before) hn.tight (blank_spaces after)).mpr ⟨_, number_of_isNumber hn, rfl⟩

/-- A rule on a part of a text. -/
theorem accepts_at {α : Type} {R : Reader α} (hR : R.Local) {text p q : List Char} {i j : Nat} {k : α}
    (he : text = p ++ t ++ q) (hi : i = p.length) (hj : j = p.length + t.length) :
    R (.ofChars text) ⟨i, j⟩ = .ok k ↔ R.Accepts t k := by
  subst he hi hj
  have hshift : Span.shift p.length ⟨0, t.length⟩ = ⟨p.length, p.length + t.length⟩ := by
    rw [Span.shift, Nat.zero_add, Nat.add_comm]
  rw [← hshift, hR (Source.window_between p t q), Rule.shifted_eq_ok]
  exact Iff.rfl

/-- The first colon after a part of a text. -/
theorem findChar_at {c : Char} {text p q : List Char} {i j : Nat} (he : text = p ++ t ++ c :: q) (hc : c ∉ t)
    (hi : i = p.length) (hj : j = text.length) :
    (Source.ofChars text).findChar ⟨i, j⟩ c = some (p.length + t.length) := by
  have htext : text = p ++ (t ++ c :: q) ++ [] := by rw [he, List.append_nil, List.append_assoc]
  have hshift : Span.shift p.length ⟨0, (t ++ c :: q).length⟩ = ⟨i, j⟩ := by
    rw [Span.shift, hi, hj, htext, List.append_nil, Nat.zero_add, Nat.add_comm (t ++ c :: q).length,
      ← List.length_append]
  rw [← hshift, htext, (Source.window_between p (t ++ c :: q) []).findChar, findChar_after hc, Option.map_some,
    Nat.add_comm]

/-- There is no colon in a part without one. -/
theorem findChar_none {c : Char} {text p : List Char} {i j : Nat} (he : text = p ++ t) (hc : c ∉ t)
    (hi : i = p.length) :
    (Source.ofChars text).findChar ⟨i, j⟩ c = none := by
  subst he hi
  rw [Option.eq_none_iff_forall_ne_some]
  intro k hk
  obtain ⟨hlow, -⟩ := Source.findChar_bounds _ hk
  have hchar := Source.charAt_of_findChar hk
  rw [Source.charAt_ofChars, List.getElem?_append_right hlow] at hchar
  exact hc (List.mem_of_getElem? hchar)

/-- A slice from its first colon on. -/
theorem slice_of_colon {r : List Char} {second : Option Nat} (h : Tight (t ++ ':' :: r)) (ht : ':' ∉ t)
    (hx : Reader.Accepts sliceBound t x)
    (hsecond : (Source.ofChars (t ++ ':' :: r)).findChar ⟨t.length + 1, (t ++ ':' :: r).length⟩ ':' = second)
    (hy : sliceBound (.ofChars (t ++ ':' :: r)) ⟨t.length + 1, second.getD (t ++ ':' :: r).length⟩ = .ok y)
    (hz : sliceBound (.ofChars (t ++ ':' :: r))
      ⟨(second.map (· + 1)).getD (t ++ ':' :: r).length, (t ++ ':' :: r).length⟩ = .ok z) :
    Reader.Accepts slice (t ++ ':' :: r) ⟨x, y, z⟩ := by
  have hstart : sliceBound (.ofChars (t ++ ':' :: r)) ⟨0, t.length⟩ = .ok x :=
    (accepts_at sliceBound_local (p := []) rfl rfl (Nat.zero_add _).symm).mpr hx
  refine (accepts_bounded h).mpr ?_
  simp only [findChar_after ht, hsecond, hstart, hy, hz]
  rfl

theorem slice_two_tight (h : Tight (t ++ ':' :: u)) (ht : ':' ∉ t) (hu : ':' ∉ u) (hx : Reader.Accepts sliceBound t x)
    (hy : Reader.Accepts sliceBound u y) : Reader.Accepts slice (t ++ ':' :: u) ⟨x, y, none⟩ := by
  have htext : t ++ ':' :: u = t ++ [':'] ++ u := by simp
  refine slice_of_colon h ht hx (findChar_none htext hu (by simp)) ?_ ?_
  · exact (accepts_at sliceBound_local (p := t ++ [':']) (q := []) (by simp) (by simp) (by simp; omega)).mpr hy
  · rw [Option.map_none, Option.getD_none, sliceBound, Source.slice_of_le _ (Nat.le_refl _)]
    rfl

theorem slice_three_tight (h : Tight (t ++ ':' :: (u ++ ':' :: v))) (ht : ':' ∉ t) (hu : ':' ∉ u)
    (hx : Reader.Accepts sliceBound t x) (hy : Reader.Accepts sliceBound u y) (hz : Reader.Accepts sliceBound v z) :
    Reader.Accepts slice (t ++ ':' :: (u ++ ':' :: v)) ⟨x, y, z⟩ := by
  have htext : t ++ ':' :: (u ++ ':' :: v) = t ++ [':'] ++ u ++ ':' :: v := by simp
  refine slice_of_colon h ht hx (findChar_at htext hu (by simp) rfl) ?_ ?_
  · exact (accepts_at sliceBound_local htext List.length_append.symm rfl).mpr hy
  · exact (accepts_at sliceBound_local (p := t ++ [':'] ++ u ++ [':']) (q := []) (by simp) (by simp; omega)
      (by simp; omega)).mpr hz

/-- A text is spaces and then something else, or nothing. -/
theorem exists_leading (t : List Char) : ∃ a u, t = a ++ u ∧ Blank a ∧ u.head? ≠ some ' ' := by
  by_cases ht : ∃ c ∈ t, c ≠ ' '
  · obtain ⟨a, u, he, ha, -, hu⟩ := Tight.exists_head ht
    exact ⟨a, u, he, ha, hu⟩
  · exact ⟨t, [], (List.append_nil t).symm, fun c hc => Decidable.not_not.mp fun hne => ht ⟨c, hc, hne⟩, nofun⟩

/-- **The spaces at the ends of a slice belong to its outer bounds**, which are the same without. -/
theorem slice_of_middle {m : List Char} (hm : Tight m) (hx : Reader.Accepts sliceBound t x)
    (hz : Reader.Accepts sliceBound v z) : ∃ t' v', t' ⊆ t ∧ v' ⊆ v ∧ Tight (t' ++ m ++ v') ∧
      Reader.Accepts sliceBound t' x ∧ Reader.Accepts sliceBound v' z ∧
        ∀ s, Reader.Accepts slice (t' ++ m ++ v') s → Reader.Accepts slice (t ++ m ++ v) s := by
  obtain ⟨a, t, rfl, ha, hhead⟩ := exists_leading t
  obtain ⟨b, w, hw, hb, hlast⟩ := exists_leading v.reverse
  obtain rfl : v = w.reverse ++ b.reverse := by rw [← List.reverse_append, ← hw, List.reverse_reverse]
  have hb : Blank b.reverse := fun c hc => hb c (List.mem_reverse.mp hc)
  have htight : Tight (t ++ m ++ w.reverse) := hm.around hhead (by rwa [List.getLast?_reverse])
  have hx : Reader.Accepts sliceBound t x := by
    have hpad := sliceBound_pad (t := t) (x := x) ha (b := []) nofun
    rw [List.append_nil] at hpad
    exact hpad.mp hx
  refine ⟨t, w.reverse, List.subset_append_right a t, List.subset_append_left _ _, htight, hx,
    (sliceBound_pad (a := []) nofun hb).mp hz, fun s hs => ?_⟩
  rw [show a ++ t ++ m ++ (w.reverse ++ b.reverse) = a ++ (t ++ m ++ w.reverse) ++ b.reverse by
    simp only [List.append_assoc]]
  exact (slice_trims.accepts_pad slice_local ha hb htight).mpr hs

/-- **Two bounds.** -/
theorem slice_of_two (hx : IsBound t x) (hy : IsBound u y) : Reader.Accepts slice (t ++ ':' :: u) ⟨x, y, none⟩ := by
  obtain ⟨t', u', ht, hu, htight, hx', hy', hslice⟩ := slice_of_middle (m := [':'])
    ⟨nofun, by decide, by decide⟩ (sliceBound_of_isBound hx) (sliceBound_of_isBound hy)
  simp only [List.append_assoc, List.singleton_append] at htight hslice
  exact hslice _ (slice_two_tight htight (fun h => hx.not_mem rfl (ht h)) (fun h => hy.not_mem rfl (hu h)) hx' hy')

/-- **Three bounds.** -/
theorem slice_of_three (hx : IsBound t x) (hy : IsBound u y) (hz : IsBound v z) :
    Reader.Accepts slice (t ++ ':' :: (u ++ ':' :: v)) ⟨x, y, z⟩ := by
  obtain ⟨t', v', ht, -, htight, hx', hz', hslice⟩ := slice_of_middle (m := ':' :: u ++ [':'])
    (.of_enclosed u (by decide) (by decide)) (sliceBound_of_isBound hx) (sliceBound_of_isBound hz)
  simp only [List.append_assoc, List.cons_append, List.nil_append] at htight hslice
  exact hslice _ (slice_three_tight htight (fun h => hx.not_mem rfl (ht h)) (hy.not_mem rfl) hx'
    (sliceBound_of_isBound hy) hz')

end

/-- A bracket that holds no question mark is what its content is. -/
theorem bracket_iff_content {w : List Char} (hne : w ≠ []) (hw : '?' ∉ w) {b : Bracket} :
    (reader bracket).Accepts ('[' :: w ++ [']']) b ↔ Reader.Accepts bracketContent w b := by
  cases w with
  | nil => exact absurd rfl hne
  | cons c w =>
    have hc : c ≠ '?' := by
      rintro rfl
      exact hw List.mem_cons_self
    rw [bracket_iff, if_neg hc]

end Form

namespace Expr

open Form

/-- **Signs, digits and spaces are no expression.** -/
theorem not_reads_numeric {t : List Char} (ht : ∀ c ∈ t, isNumeric c = true) (e : Expr) : ¬ Reads t e := by
  intro h
  obtain ⟨a, u, b, rfl, -, -, hu, hread⟩ := reads_core h
  have hnumeric : ∀ c ∈ u, isNumeric c = true := fun c hc => ht c (List.mem_append_left b (List.mem_append_right a hc))
  have huncut : Uncuttable u := .of_tail fun c hc => not_joint_of_isNumeric (hnumeric c (List.mem_of_mem_tail hc))
  obtain ⟨c, u, rfl⟩ := List.exists_cons_of_ne_nil hu.ne_nil
  rcases reads_heads_or_cut hu hread with ⟨i, -, -, -, hheads⟩ | hcut
  · rw [heads_isNumeric (hnumeric c List.mem_cons_self)] at hheads
    cases hheads
  · exact huncut.not_cut hcut

theorem not_listOf_numeric {w : List Char} (hw : ∀ c ∈ w, isNumeric c = true) (x : Selector) :
    ¬ (reader listOf).Accepts ('[' :: w ++ [']']) x := by
  intro h
  obtain ⟨es, hes, -⟩ := map_eq_ok.mp h
  have hle : (Span.inner ⟨0, ('[' :: w ++ [']']).length⟩).start ≤
      (Span.inner ⟨0, ('[' :: w ++ [']']).length⟩).stop := by simp [Span.inner]
  have hstop : (Span.inner ⟨0, ('[' :: w ++ [']']).length⟩).stop ≤ (Source.ofChars ('[' :: w ++ [']'])).size :=
    Nat.sub_le _ _
  cases (Rule.entries_enclosed (R := read) (by decide) (by decide)).mp hes with
  | single _ he =>
    have he := (read_local.eq_ok hle hstop).mp he
    rw [Source.slice_inner] at he
    exact not_reads_numeric hw _ he
  | several hfirst _ =>
    obtain ⟨hcomma, -⟩ := Rule.mem_firstEntries.mp (hfirst ▸ List.mem_singleton_self _)
    obtain ⟨x, y, he, -⟩ := (Rule.mem_commas hle hstop).mp hcomma
    rw [Source.slice_inner] at he
    have hmem : ',' ∈ w := he ▸ List.mem_append_right x List.mem_cons_self
    exact absurd (hw ',' hmem) (by decide)

/-- **An integer between square brackets** is read just if it has 64 bits to fit in. -/
theorem reads_bracketed_iff (n : IntegerText) (before after : Nat) {e : Expr} :
    Reads ('[' :: n.padded before after ++ [']']) e ↔ ∃ k : Int64, k.toInt = n.value ∧ e = .index (.number k) := by
  have hnumeric := n.numeric before after
  have hbracket : ∀ b, (reader bracket).Accepts ('[' :: n.padded before after ++ [']']) b ↔
      ∃ k : Int64, k.toInt = n.value ∧ b = .number k := fun b => by
    rw [bracket_iff_content (fun hnil => ?_) fun h => absurd (hnumeric '?' h) (by decide), bracketContent_iff]
    exact n.tight.ne_nil (List.append_eq_nil_iff.mp (List.append_eq_nil_iff.mp hnil).1).2
  constructor
  · intro h
    have ht : Tight ('[' :: n.padded before after ++ [']']) := .of_enclosed _ (by decide) (by decide)
    have huncut : Uncuttable ('[' :: n.padded before after ++ [']']) :=
      .enclosed (i := false) (.plain fun c hc => isPlain_of_isNumeric (hnumeric c hc)) rfl
    obtain ⟨i, R, hR, he, hheads⟩ := (reads_heads_or_cut ht h).resolve_right huncut.not_cut
    have hplace : ∀ i < 16, heads i '[' = true → i = 1 ∨ i = 9 := by decide
    rcases hplace i (heads_lt hheads) hheads with rfl | rfl
    · cases hR
      rcases (indexed_iff ht).mp he with he | ⟨-, he | ⟨-, he⟩⟩
      · obtain ⟨l, b, ⟨x, y, htext, hl, hb, -⟩, -⟩ := (indexedLeft_iff ht).mp he
        exact absurd (htext ▸ Cut.index hl hb) huncut.not_cut
      · obtain ⟨b, hb, rfl⟩ := map_eq_ok.mp he
        obtain ⟨k, hk, rfl⟩ := (hbracket b).mp hb
        exact ⟨k, hk, rfl⟩
      · cases he
    · cases hR
      obtain ⟨x, hx, -⟩ := map_eq_ok.mp he
      exact absurd hx (not_listOf_numeric hnumeric x)
  · rintro ⟨k, hk, rfl⟩
    exact reads_index ((hbracket _).mpr ⟨k, hk, rfl⟩)

/-- A slice between square brackets nests nothing more. -/
theorem parse_bracketed_slice {limits : Limits} (hlimits : 1 ≤ limits.maxDepth) {w : List Char} {s : Slice}
    (hw : ∀ c ∈ w, c = ':' ∨ isNumeric c = true) (h : Reader.Accepts slice w s) :
    parse limits (bracketed w) = .ok (.index (.slice s)) := by
  have habsent : ∀ c, c ≠ ':' → isNumeric c = false → c ∉ w := fun c hcolon hc hmem =>
    (hw c hmem).elim hcolon (Bool.eq_false_iff.mp hc)
  have hne : w ≠ [] := by
    rintro rfl
    cases h
  refine parse_of_reads ?_ hlimits
  rw [bracketed, String.toList_ofList]
  exact reads_index ((bracket_iff_content hne (habsent '?' (by decide) rfl)).mpr
    (bracketContent_of_slice h (habsent '*' (by decide) rfl)))

/-- What is parsed with a limit can be read without one. -/
theorem readable_of_parse {limits : Limits} {text : String} {e : Expr} (h : parse limits text = .ok e) :
    Readable text.toList := by
  have hle : limits.maxDepth ≤ (⟨max limits.maxDepth text.toList.length⟩ : Limits).maxDepth := Nat.le_max_left _ _
  obtain ⟨e', he'⟩ := (parse_upto hle text).found e (Rule.toOption_eq_some.mpr h)
  exact ⟨e', (parse_eq_read (Nat.le_max_right _ _)).mp (Rule.toOption_eq_some.mp he')⟩

end Expr

/-! ### The item at a place -/

namespace Value

variable {items : List Value} {n : Int64} {i : Nat}

/-- An integer counts off an item from the front, or from the end if it is negative. -/
theorem item_of_place (hi : i < items.length) (h : n.toInt = i ∨ n.toInt = i - (items.length : Int)) :
    item n (.array items) = items[i] := by
  have hplace : place? items.length n = some i := by
    unfold place?
    split <;> rw [if_pos (by omega)] <;> exact congrArg some (by omega)
  rw [item, hplace, Option.bind_some, List.getElem?_eq_getElem hi, Option.getD_some]

/-- There is nothing before the first item and after the last. -/
theorem item_outside (h : n.toInt < -(items.length : Int) ∨ (items.length : Int) ≤ n.toInt) :
    item n (.array items) = .null := by
  have hplace : place? items.length n = none := by
    unfold place?
    split <;> rw [if_neg (by omega)]
  rw [item, hplace]
  rfl

end Value

theorem Query.search_place {text : String} {n : Int64} (h : Expr.parse {} text = .ok (.index (.number n))) (v : Value) :
    search text v = .ok (v.item n) := by
  have hcompile : compile text input = .ok (.mk input [.index n]) := by
    unfold compile Session.step
    rw [show Session.usual.limits = {} from rfl, h]
    rfl
  rw [search, hcompile]
  rfl

/-- **Integers and bounds between square brackets, from the text to the result.** An integer is
read just if it has 64 bits to fit in; a search with it takes the item that it counts off from
the front or from the end, and null if there is none. Bounds are read as the slice with just
these bounds, and with two of them there is no third. -/
theorem Expr.parse_bracketed {limits : Limits} (hlimits : 1 ≤ limits.maxDepth) :
    (∀ (n : IntegerText) (before after : Nat),
      ((∃ e, parse limits (bracketed (n.padded before after)) = .ok e) ↔ n.Fits) ∧
      (n.Fits → parse limits (bracketed (n.padded before after)) = .ok (.index (.number (Int64.ofInt n.value))) ∧
        ∀ items : List Value,
          (∀ (i : Nat) (hi : i < items.length), n.value = i ∨ n.value = i - (items.length : Int) →
            Query.search (bracketed (n.padded before after)) (.array items) = .ok items[i]) ∧
          (n.value < -(items.length : Int) ∨ (items.length : Int) ≤ n.value →
            Query.search (bracketed (n.padded before after)) (.array items) = .ok .null))) ∧
    ∀ (x y z : Option Int64) (t u v : List Char), IsBound t x → IsBound u y → IsBound v z →
      parse limits (bracketed (t ++ ':' :: u)) = .ok (.index (.slice ⟨x, y, none⟩)) ∧
      parse limits (bracketed (t ++ ':' :: (u ++ ':' :: v))) = .ok (.index (.slice ⟨x, y, z⟩)) := by
  constructor
  · intro n before after
    have hread : ∀ {limits : Limits}, 1 ≤ limits.maxDepth → n.Fits →
        parse limits (bracketed (n.padded before after)) = .ok (.index (.number (Int64.ofInt n.value))) := by
      intro limits hlimits hfits
      refine parse_of_reads ?_ hlimits
      rw [bracketed, String.toList_ofList]
      exact (reads_bracketed_iff n before after).mpr ⟨_, IntegerText.toInt_ofInt hfits, rfl⟩
    refine ⟨⟨fun ⟨e, he⟩ => ?_, fun hfits => ⟨_, hread hlimits hfits⟩⟩,
      fun hfits => ⟨hread hlimits hfits, fun items => ?_⟩⟩
    · obtain ⟨e', he'⟩ := readable_of_parse he
      rw [bracketed, String.toList_ofList] at he'
      obtain ⟨k, hk, -⟩ := (reads_bracketed_iff n before after).mp he'
      exact IntegerText.fits_of_toInt hk
    · have husual : parse {} (bracketed (n.padded before after)) = .ok (.index (.number (Int64.ofInt n.value))) :=
        hread (by decide) hfits
      rw [Query.search_place husual]
      have hvalue := IntegerText.toInt_ofInt hfits
      refine ⟨fun i hi hplace => congrArg _ (Value.item_of_place hi ?_), fun hout => congrArg _ (Value.item_outside ?_)⟩
      · rwa [hvalue]
      · rwa [hvalue]
  · intro x y z t u v hx hy hz
    have hbound : ∀ {t : List Char} {x : Option Int64}, IsBound t x → ∀ c ∈ t, c = ':' ∨ isNumeric c = true :=
      fun h c hc => .inr (h.numeric c hc)
    have hcolon : ∀ {t u : List Char}, (∀ c ∈ t, c = ':' ∨ isNumeric c = true) →
        (∀ c ∈ u, c = ':' ∨ isNumeric c = true) → ∀ c ∈ t ++ ':' :: u, c = ':' ∨ isNumeric c = true :=
      fun ht hu => List.forall_mem_append.mpr ⟨ht, List.forall_mem_cons.mpr ⟨.inl rfl, hu⟩⟩
    constructor
    · exact parse_bracketed_slice hlimits (hcolon (hbound hx) (hbound hy)) (Form.slice_of_two hx hy)
    · exact parse_bracketed_slice hlimits (hcolon (hbound hx) (hcolon (hbound hy) (hbound hz)))
        (Form.slice_of_three hx hy hz)

/-- The smallest integer of 64 bits is read and its magnitude is not; a zero before the digits makes no difference,
and a bound that is left out is none. -/
theorem Expr.parse_bracketed_smallest :
    parse ⟨1⟩ "[ -9223372036854775808  ]" = .ok (.index (.number Int64.minValue)) ∧
      (¬ ∃ e, parse ⟨1⟩ "[9223372036854775808]" = .ok e) ∧
      Query.search "[-02]" (.array [.boolean true, .null]) = .ok (.boolean true) ∧
      parse ⟨1⟩ "[: -2 :]" = .ok (.index (.slice ⟨none, some (-2), none⟩)) := by
  let digits : List Char := "9223372036854775808".toList
  let smallest : IntegerText := ⟨true, digits, by decide, by decide⟩
  let tooLarge : IntegerText := ⟨false, digits, by decide, by decide⟩
  let second : IntegerText := ⟨true, ['0', '2'], by decide, by decide⟩
  have hlimits : 1 ≤ (⟨1⟩ : Limits).maxDepth := by decide
  have hsmallest : smallest.Fits := ⟨by decide, by decide⟩
  have htooLarge : ¬ tooLarge.Fits := fun h => absurd h.2 (by decide)
  have hsecond : second.Fits := ⟨by decide, by decide⟩
  have hblank : IsBound [] none := .blank 0
  have hbound : IsBound [' ', '-', '2', ' '] (some (-2)) := .number 1 1 (isNumber_decimal (-2))
  refine ⟨((parse_bracketed hlimits).1 smallest 1 2).2 hsmallest |>.1, ?_, ?_, ?_⟩
  · exact fun h => htooLarge (((parse_bracketed hlimits).1 tooLarge 0 0).1.mp h)
  · have hitems := (((parse_bracketed hlimits).1 second 0 0).2 hsecond).2 [.boolean true, .null]
    exact hitems.1 0 (by decide) (.inr (by decide))
  · exact ((parse_bracketed hlimits).2 none (some (-2)) none [] _ [] hblank hbound hblank).2

end PathQuery
