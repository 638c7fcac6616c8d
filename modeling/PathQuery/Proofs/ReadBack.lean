/-
# A written value is read back

The JSON text of a value without doubles is read back as the value, with its strings, its
integers and the names of its objects in their order. Each part of the text is taken off the
front by the reader for it, whatever stands behind (`TakesOff`). Only a number has to know where it
ends: what comes after a value is a comma, a closing bracket or nothing (`Ends`). Parts with
commas between them are taken one by one (`entriesOf_takes`), and an array or object is one
level of nesting around its parts.

Key definitions: `Json.Ends`, `Json.TakesOff`.
Key theorems: `Json.Text.read_escape`, `Json.Numeral.read_toString`, `Json.entriesOf_takes`,
`Value.value_takes`, `Value.read_text`.
-/
import Mathlib.Data.List.Forall2
import Mathlib.Tactic.IntervalCases
import PathQuery.Proofs.Conversion
import PathQuery.Proofs.Separation
import PathQuery.Value.Text

namespace PathQuery
namespace Json

/-- Nothing, or a text that begins with what may stand behind a value. -/
def Ends (t : List Char) : Prop := ∀ c, t.head? = some c → c ∈ [',', ')', ']', '\x7d']

/-- A reader takes `t` off the front of `t ++ rest`, no more and no less, and makes `a` of it. -/
def TakesOff {α : Type} (r : Reader α) (t rest : List Char) (a : α) : Prop :=
  ∀ offset, ∃ offset', r ⟨t ++ rest, offset⟩ = .ok (a, ⟨rest, offset'⟩)

namespace Ends

theorem nil : Ends [] := nofun

theorem cons {c : Char} {t : List Char} (h : c ∈ [',', ')', ']', '\x7d']) : Ends (c :: t) := by
  rintro _ ⟨⟩
  exact h

/-- A closing parenthesis may stand behind a value. -/
theorem paren (t : List Char) : Ends (')' :: t) := cons (by decide)

/-- Nothing else may. -/
theorem head?_ne {c : Char} {t : List Char} (h : Ends t) (hc : c ∉ [',', ')', ']', '\x7d']) :
    t.head? ≠ some c := fun hhead => hc (h c hhead)

/-- What stands behind a value goes on neither a name nor a number. -/
theorem head_ne {t : List Char} (h : Ends t) {p : Char → Bool}
    (hp : [',', ')', ']', '\x7d'].all (!p ·) = true) : ∀ c, t.head? = some c → p c = false := by
  intro c hc
  simpa using List.all_eq_true.mp hp c (h c hc)

end Ends

namespace TakesOff

variable {α : Type} {r : Reader α} {t u rest : List Char} {a : α}

/-- What a reader takes tells texts apart: if two go on to the same text, each with what it
stands for, they stand for the same and so do the rests. -/
theorem cancel {a' : α} {rest' : List Char} (h : TakesOff r t rest a) (h' : TakesOff r u rest' a')
    (heq : t ++ rest = u ++ rest') : a = a' ∧ rest = rest' := by
  obtain ⟨_, h⟩ := h 0
  obtain ⟨_, h'⟩ := h' 0
  rw [heq, h'] at h
  cases h
  exact ⟨rfl, rfl⟩

end TakesOff

/-- A character that is no blank is not skipped. -/
theorem Cursor.skipBlanks_cons {x : Char} (hx : isBlank x = false) (t : List Char) (offset : Nat) :
    Cursor.skipBlanks ⟨x :: t, offset⟩ = ⟨x :: t, offset⟩ := by
  simp only [skipBlanks, afterBlanks, hx, Bool.false_eq_true, if_false]

/-! ### Strings -/

namespace Text

/-- A digit of a number below 16 is read as that number. -/
theorem hexValue_hexDigit : ∀ n < 16, CharClass.isHexDigit (Quoted.hexDigit n) = true ∧
    hexValue (Quoted.hexDigit n) = n := by decide

theorem hex4_fourHexDigits {n : Nat} (hn : n < 65536) (rest : List Char) :
    TakesOff hex4 (Quoted.fourHexDigits n) rest n := by
  have hdigit (m : Nat) : CharClass.isHexDigit (Quoted.hexDigit (m % 16)) = true ∧
      hexValue (Quoted.hexDigit (m % 16)) = m % 16 := hexValue_hexDigit _ (Nat.mod_lt m (by decide))
  have hall : (Quoted.fourHexDigits n).all CharClass.isHexDigit = true := by
    simp only [Quoted.fourHexDigits, List.all_cons, List.all_nil, (hdigit _).1, Bool.and_self]
  have hvalue : ((n / 4096 % 16 * 16 + n / 256 % 16) * 16 + n / 16 % 16) * 16 + n % 16 = n := by omega
  refine fun offset => ⟨offset + 4, ?_⟩
  unfold hex4
  simp only [Quoted.fourHexDigits, List.cons_append, List.nil_append] at hall ⊢
  rw [if_pos hall]
  simp only [(hdigit _).2, hvalue]

/-- A control character is read back from its code point. -/
theorem codePoint_fourHexDigits {c : Char} (hc : CharClass.isControl c = true) (rest : List Char) :
    TakesOff codePoint (Quoted.fourHexDigits c.toNat) rest c := by
  have hsmall : c.toNat < 256 := by
    simp only [CharClass.isControl, Bool.or_eq_true, Bool.and_eq_true, decide_eq_true_eq] at hc
    omega
  have hlow : isLowHalf c.toNat = false := by
    simp only [isLowHalf, Bool.and_eq_false_iff, decide_eq_false_iff_not]
    omega
  have hhigh : isHighHalf c.toNat = false := by
    simp only [isHighHalf, Bool.and_eq_false_iff, decide_eq_false_iff_not]
    omega
  intro offset
  obtain ⟨offset', h⟩ := hex4_fourHexDigits (Nat.lt_trans hsmall (by decide)) rest offset
  refine ⟨offset', ?_⟩
  unfold codePoint
  rw [h]
  simp only [bind, Except.bind, hlow, hhigh, Bool.false_eq_true, if_false, Char.ofNat_toNat]

/-- An escaped character is not empty. -/
theorem escapeChar_ne_nil (c : Char) : Quoted.escapeChar c ≠ [] := by
  unfold Quoted.escapeChar
  split_ifs <;> exact List.cons_ne_nil _ _

/-- A letter behind a backslash is read as what it stands for. -/
theorem escape_letter {x c : Char} (h : Quoted.unescapeLetter? x = some c) (rest : List Char) :
    TakesOff escape [x] rest c := by
  intro offset
  refine ⟨offset + x.utf8Size, ?_⟩
  unfold escape
  simp only [List.singleton_append, h]
  rfl

/-- A character stands between quotes as an escape that is read back, or for itself. -/
theorem escapeChar_cases (c : Char) :
    (∃ u, Quoted.escapeChar c = '\\' :: u ∧ ∀ rest, TakesOff escape u rest c) ∨
      Quoted.escapeChar c = [c] ∧ c ≠ '"' ∧ c ≠ '\\' ∧ ¬c < ' ' := by
  unfold Quoted.escapeChar
  split_ifs with hquote hslash hn hr ht hcontrol
  · exact .inl ⟨_, rfl, escape_letter (by rw [hquote]; rfl)⟩
  · exact .inl ⟨_, rfl, escape_letter (by rw [hslash]; rfl)⟩
  · exact .inl ⟨_, rfl, escape_letter (by rw [hn]; rfl)⟩
  · exact .inl ⟨_, rfl, escape_letter (by rw [hr]; rfl)⟩
  · exact .inl ⟨_, rfl, escape_letter (by rw [ht]; rfl)⟩
  · exact .inl ⟨_, rfl, fun rest offset => codePoint_fourHexDigits hcontrol rest (offset + 'u'.utf8Size)⟩
  · refine .inr ⟨rfl, hquote, hslash, fun hlt => hcontrol ?_⟩
    simp only [CharClass.isControl, Bool.or_eq_true, decide_eq_true_eq]
    exact .inl (Char.lt_def.mp hlt)

/-- One character of a string, as it stands between quotes, is read back. -/
theorem chars_cons {room : Nat} (c : Char) {cs t rest : List Char} (h : TakesOff (chars room) t rest cs) :
    TakesOff (chars (room + 1)) (Quoted.escapeChar c ++ t) rest (c :: cs) := by
  intro offset
  rcases escapeChar_cases c with ⟨u, hu, hescape⟩ | ⟨hself, hquote, hslash, hspace⟩
  · obtain ⟨o, ho⟩ := hescape (t ++ rest) (offset + '\\'.utf8Size)
    obtain ⟨o', ho'⟩ := h o
    refine ⟨o', ?_⟩
    rw [hu, List.append_assoc, List.cons_append]
    show (escape ⟨u ++ (t ++ rest), offset + '\\'.utf8Size⟩ >>= _) = _
    simp only [ho, bind, Except.bind, ho']
  · obtain ⟨o', ho'⟩ := h (offset + c.utf8Size)
    refine ⟨o', ?_⟩
    rw [hself, List.append_assoc, List.singleton_append]
    unfold chars
    simp only [if_neg hquote, if_neg hslash, if_neg hspace, Cursor.advance, bind, Except.bind, ho']

theorem chars_escape (rest : List Char) : ∀ {room : Nat} {cs : List Char}, cs.length < room →
    TakesOff (chars room) (cs.flatMap Quoted.escapeChar ++ ['"']) rest cs
  | room + 1, [], _ => fun offset => ⟨offset + '"'.utf8Size, rfl⟩
  | room + 1, c :: cs, h => by
    rw [List.flatMap_cons, List.append_assoc]
    exact chars_cons c (chars_escape rest (Nat.lt_of_succ_lt_succ h))

/-- **A string is read back from between its quotes.** -/
theorem read_escape {room : Nat} {s : String} (h : s.length < room) (rest : List Char) :
    TakesOff (read room) ((Quoted.escape s).toList ++ ['"']) rest s := by
  intro offset
  have hchars : TakesOff (chars room) (s.toList.flatMap Quoted.escapeChar ++ ['"']) rest s.toList :=
    chars_escape rest h
  obtain ⟨offset', h⟩ := hchars offset
  refine ⟨offset', ?_⟩
  unfold read
  rw [Quoted.escape, String.toList_ofList, h]
  simp only [bind, Except.bind, String.ofList_toList]

theorem length_le_escape (s : String) : s.length ≤ (Quoted.escape s).length := by
  rw [Quoted.escape, String.length_ofList, ← String.length_toList]
  induction s.toList with
  | nil => exact Nat.le_refl 0
  | cons c cs ih =>
    have hc := List.length_pos_iff.mpr (escapeChar_ne_nil c)
    rw [List.flatMap_cons, List.length_append, List.length_cons]
    omega

end Text

/-! ### Numbers -/

/-- A positive number does not begin with 0. -/
theorem head?_toDigits {n : Nat} (hn : 0 < n) : (Nat.toDigits 10 n).head? ≠ some '0' := by
  induction n using Nat.strongRecOn with
  | ind n ih =>
    by_cases hlt : n < 10
    · rw [Nat.toDigits_of_lt_base hlt]
      interval_cases n <;> decide
    · rw [Nat.toDigits_of_base_le (by decide) (by omega), List.head?_append_of_ne_nil _ Nat.toDigits_ne_nil]
      exact ih (n / 10) (by omega) (by omega)

namespace Numeral

/-- All digits that come next are taken. -/
theorem digits_append {ds rest : List Char} (hds : ∀ c ∈ ds, c.isDigit = true) (hrest : Ends rest)
    (offset : Nat) : digits ⟨ds ++ rest, offset⟩ = (ds, ⟨rest, offset + ds.length⟩) := by
  have hnone : rest.takeWhile Char.isDigit = [] ∧ rest.dropWhile Char.isDigit = rest := by
    cases rest with
    | nil => exact ⟨rfl, rfl⟩
    | cons c rest =>
      have hc : c.isDigit = false := hrest.head_ne (by decide) c rfl
      rw [List.takeWhile_cons, List.dropWhile_cons, hc]
      exact ⟨rfl, rfl⟩
  simp only [digits, List.takeWhile_append_of_pos hds, List.dropWhile_append_of_pos hds, hnone.1, hnone.2,
    List.append_nil]

theorem readWhole_toDigits {n : Nat} {rest : List Char} (hrest : Ends rest) :
    TakesOff readWhole (Nat.toDigits 10 n) rest (Nat.toDigits 10 n) := by
  have hdigits : ∀ c ∈ Nat.toDigits 10 n, c.isDigit = true := fun c hc =>
    Nat.isDigit_of_mem_toDigits (by decide) (by decide) hc
  -- only 0 itself begins with 0
  have hzero : ∀ d ds, Nat.toDigits 10 n ≠ '0' :: d :: ds := by
    intro d ds hds
    rcases Nat.eq_zero_or_pos n with rfl | hn
    · simp at hds
    · exact head?_toDigits hn (by rw [hds]; rfl)
  refine fun offset => ⟨offset + (Nat.toDigits 10 n).length, ?_⟩
  have hread := digits_append hdigits hrest offset
  have hne : Nat.toDigits 10 n ≠ [] := Nat.toDigits_ne_nil
  generalize Nat.toDigits 10 n = ds at hread hzero hne ⊢
  have hsome : someDigits ⟨ds ++ rest, offset⟩ = .ok (ds, ⟨rest, offset + ds.length⟩) := by
    unfold someDigits
    rw [hread]
    cases ds with
    | nil => exact absurd rfl hne
    | cons d ds => rfl
  unfold readWhole
  simp only [hsome, bind, Except.bind]

/-- Digits whose number stays below the limit are all appended. -/
theorem absorb_eq {limit : Nat} : ∀ {ds : List Char} {n : Nat}, Nat.ofDigitChars 10 ds n < limit →
    absorb limit n ds = (Nat.ofDigitChars 10 ds n, [])
  | [], _, _ => rfl
  | d :: ds, n, h => by
    rw [Nat.ofDigitChars_cons] at h ⊢
    have hle : ∀ (ds : List Char) (m : Nat), m ≤ Nat.ofDigitChars 10 ds m := by
      intro ds
      induction ds with
      | nil => exact fun m => Nat.le_refl m
      | cons d ds ih =>
        intro m
        rw [Nat.ofDigitChars_cons]
        exact Nat.le_trans (by omega) (ih _)
    have hnext : 10 * n + CharClass.digitValue d < limit := Nat.lt_of_le_of_lt (hle ds _) h
    unfold absorb
    simp only [if_pos hnext]
    exact absorb_eq h

theorem absorb_toDigits {limit n : Nat} (h : n < limit) : absorb limit 0 (Nat.toDigits 10 n) = (n, []) := by
  have hvalue : Nat.ofDigitChars 10 (Nat.toDigits 10 n) 0 = n := Nat.ofDigitChars_ten_toDigits
  rw [absorb_eq (hvalue.symm ▸ h), hvalue]

theorem readFraction_ends {rest : List Char} (h : Ends rest) : TakesOff readFraction [] rest none := by
  refine fun offset => ⟨offset, ?_⟩
  unfold readFraction
  split
  · rename_i t heq
    exact absurd (congrArg List.head? heq) (h.head?_ne (by decide))
  · rfl

theorem readPower_ends {rest : List Char} (h : Ends rest) : TakesOff readPower [] rest none := by
  refine fun offset => ⟨offset, if_neg ?_⟩
  rintro (he | he)
  · exact h.head?_ne (by decide) he
  · exact h.head?_ne (by decide) he

/-- The sign of an integer and its digits. -/
def ofInt (n : Int) : Numeral := ⟨decide (n < 0), Nat.toDigits 10 n.natAbs, none, none⟩

theorem toList_toString : ∀ n : Int,
    (toString n).toList = (if n < 0 then ['-'] else []) ++ Nat.toDigits 10 n.natAbs
  | .ofNat m => by
    have hn : ¬Int.ofNat m < 0 := Int.not_lt.mpr (Int.natCast_nonneg m)
    rw [if_neg hn]
    exact Nat.toList_repr
  | .negSucc m => by
    rw [if_pos (Int.negSucc_lt_zero m), show toString (Int.negSucc m) = "-" ++ (m + 1).repr from rfl,
      String.toList_append, Nat.toList_repr]
    rfl

theorem readParts_toString (n : Int) {rest : List Char} (h : Ends rest) :
    TakesOff readParts (toString n).toList rest (ofInt n) := by
  intro offset
  obtain ⟨o, hwhole⟩ := readWhole_toDigits (n := n.natAbs) h (if n < 0 then offset + '-'.utf8Size else offset)
  obtain ⟨o', hfraction⟩ := readFraction_ends h o
  obtain ⟨o'', hpower⟩ := readPower_ends h o'
  refine ⟨o'', ?_⟩
  simp only [List.nil_append] at hfraction hpower
  rw [toList_toString]
  unfold readParts ofInt
  by_cases hn : n < 0
  · simp only [if_pos hn] at hwhole ⊢
    show (readWhole ⟨Nat.toDigits 10 n.natAbs ++ rest, offset + '-'.utf8Size⟩ >>= _) = _
    simp only [hwhole, bind, Except.bind, hfraction, hpower, hn]
    rfl
  · have hsign : ((Nat.toDigits 10 n.natAbs ++ rest).head? == some '-') = false := by
      rw [List.head?_append_of_ne_nil _ Nat.toDigits_ne_nil]
      refine beq_eq_false_iff_ne.mpr fun hhead => ?_
      have hminus := Nat.isDigit_of_mem_toDigits (by decide) (by decide) (List.mem_of_mem_head? hhead)
      exact absurd hminus (by decide)
    simp only [if_neg hn, List.nil_append] at hwhole ⊢
    simp only [hsign, Bool.false_eq_true, if_false, hwhole, bind, Except.bind, hfraction, hpower, hn,
      decide_false]

theorem integer?_ofInt {n : Int} (hlow : -(limit63 : Int) ≤ n) (hhigh : n < limit63) :
    (ofInt n).integer? = some n := by
  have h63 : limit63 < limit64 := by decide
  have hsize : n.natAbs < limit64 := by omega
  simp only [integer?, ofInt, absorb_toDigits hsize, List.isEmpty_nil, Bool.not_true, Bool.false_eq_true,
    if_false]
  by_cases hn : n < 0
  · have hbound : 0 < n.natAbs ∧ n.natAbs ≤ limit63 := by omega
    simp only [hn, decide_true, Bool.not_true, Bool.false_eq_true, if_false, if_pos hbound]
    congr 1
    omega
  · simp only [hn, decide_false, Bool.not_false, if_true]
    congr 1
    omega

/-- **An integer of 64 bits is read back from its digits.** -/
theorem read_toString {n : Int} (hlow : -(limit63 : Int) ≤ n) (hhigh : n < limit63) {rest : List Char}
    (h : Ends rest) : TakesOff read (toString n).toList rest (.integer n) := by
  intro offset
  obtain ⟨offset', hparts⟩ := readParts_toString n h offset
  refine ⟨offset', ?_⟩
  unfold read
  simp only [hparts, bind, Except.bind, number?, integer?_ofInt hlow hhigh]

end Numeral

/-! ### Sequences -/

/-- A text begins as an entry may: not with a blank and not with the closing bracket. -/
def Brackets.Begins (b : Brackets) (t : List Char) : Prop :=
  ∃ x u, t = x :: u ∧ isBlank x = false ∧ x ≠ b.closing ∧ b.begins x = true

theorem Brackets.Begins.append {b : Brackets} {t : List Char} (h : b.Begins t) (u : List Char) :
    b.Begins (t ++ u) := by
  obtain ⟨x, v, rfl, hx⟩ := h
  exact ⟨x, v ++ u, rfl, hx⟩

theorem Brackets.Begins.join {b : Brackets} {t : List Char} (h : b.Begins t) :
    ∀ ts, b.Begins ([','].intercalate (t :: ts))
  | [] => by rwa [List.intercalate_singleton]
  | u :: ts => h.append (',' :: [','].intercalate (u :: ts))

section Sequences

variable {α : Type} {b : Brackets} {entry : Reader α}

theorem Brackets.isBlank_closing (hb : b.closing ∈ [']', '\x7d']) : isBlank b.closing = false := by
  simp only [List.mem_cons, List.not_mem_nil, or_false] at hb
  rcases hb with hb | hb <;> rw [hb] <;> rfl

theorem Brackets.closing_ne_comma (hb : b.closing ∈ [']', '\x7d']) : ',' ≠ b.closing := by
  intro h
  rw [← h] at hb
  exact absurd hb (by decide)

/-- An entry that may stand in a sequence and is taken off the front. -/
def Brackets.Entry (b : Brackets) (entry : Reader α) (t : List Char) (a : α) : Prop :=
  b.Begins t ∧ ∀ rest, Ends rest → TakesOff entry t rest a

/-- **Entries with commas between them are taken one by one**, and the closing bracket with them. -/
theorem entriesOf_takes (hb : b.closing ∈ [']', '\x7d']) (rest : List Char) :
    ∀ {room : Nat} {ts : List (List Char)} {as : List α}, List.Forall₂ (b.Entry entry) ts as → ts ≠ [] →
      ts.length ≤ room → TakesOff (entriesOf b entry room) ([','].intercalate ts ++ [b.closing]) rest as
  | _, _, _, .nil, hne, _ => absurd rfl hne
  | room + 1, [t], [a], .cons ht .nil, _, _ => by
    intro offset
    obtain ⟨o, ho⟩ := ht.2 (b.closing :: rest) (.cons (List.mem_of_mem_drop (i := 2) hb)) offset
    refine ⟨o + b.closing.utf8Size, ?_⟩
    rw [List.intercalate_singleton, List.append_assoc, List.singleton_append]
    unfold entriesOf
    simp only [ho, bind, Except.bind, Cursor.skipBlanks_cons (Brackets.isBlank_closing hb), if_true]
    rfl
  | room + 1, t :: u :: us, a :: _ :: _, .cons ht (.cons hu hus), _, hroom => by
    have hmore := entriesOf_takes hb rest (.cons hu hus) (List.cons_ne_nil _ _) (Nat.le_of_succ_le_succ hroom)
    obtain ⟨y, v, hjoin, hblank, hclosing, hbegins⟩ := (hu.1.join us).append ([b.closing] ++ rest)
    rw [← List.append_assoc] at hjoin
    intro offset
    obtain ⟨o, ho⟩ := ht.2 (',' :: y :: v) (.cons (by decide)) offset
    obtain ⟨o', ho'⟩ := hmore (o + ','.utf8Size)
    refine ⟨o', ?_⟩
    have htext : [','].intercalate (t :: u :: us) ++ [b.closing] ++ rest = t ++ ',' :: y :: v := by
      rw [Rule.join_cons, ← hjoin]
      simp only [List.append_assoc, List.cons_append]
    rw [htext]
    rw [hjoin] at ho'
    unfold entriesOf
    have hcomma := Brackets.closing_ne_comma hb
    simp only [ho, bind, Except.bind, Cursor.skipBlanks_cons (show isBlank ',' = false from rfl), if_neg hcomma,
      if_true, Cursor.advance, Cursor.skipBlanks_cons hblank, if_neg hclosing, hbegins, ho']

/-- No entry is empty. -/
theorem Brackets.length_le_join : ∀ {ts : List (List Char)} {as : List α}, List.Forall₂ (b.Entry entry) ts as →
    ts.length ≤ ([','].intercalate ts).length
  | _, _, .nil => Nat.le_refl _
  | _, _, .cons ht .nil => by
    obtain ⟨⟨x, u, rfl, -⟩, -⟩ := ht
    rw [List.intercalate_singleton]
    exact Nat.succ_le_succ (Nat.zero_le _)
  | _, _, .cons _ (.cons hu hts) => by
    have hmore := length_le_join (.cons hu hts)
    simp only [Rule.join_cons, List.length_append, List.length_cons] at hmore ⊢
    omega

/-- **A sequence is taken as a whole**, from behind its opening bracket. -/
theorem sequenceOf_takes (hb : b.closing ∈ [']', '\x7d']) (rest : List Char) {room : Nat}
    {ts : List (List Char)} {as : List α} (h : List.Forall₂ (b.Entry entry) ts as)
    (hroom : ([','].intercalate ts).length ≤ room) :
    TakesOff (sequenceOf b room entry) ([','].intercalate ts ++ [b.closing]) rest as := by
  have hlength : ts.length ≤ room := Nat.le_trans (Brackets.length_le_join h) hroom
  intro offset
  cases h with
  | nil =>
    refine ⟨offset + b.closing.utf8Size, ?_⟩
    show sequenceOf b room entry ⟨b.closing :: rest, offset⟩ = _
    unfold sequenceOf
    simp only [Cursor.skipBlanks_cons (Brackets.isBlank_closing hb), if_true]
    rfl
  | @cons t a ts as ht hts =>
    obtain ⟨y, v, hjoin, hblank, hclosing, hbegins⟩ := (ht.1.join ts).append ([b.closing] ++ rest)
    rw [← List.append_assoc] at hjoin
    obtain ⟨o, ho⟩ := entriesOf_takes hb rest (.cons ht hts) (List.cons_ne_nil _ _) hlength offset
    refine ⟨o, ?_⟩
    rw [hjoin] at ho ⊢
    unfold sequenceOf
    simp only [Cursor.skipBlanks_cons hblank, if_neg hclosing, hbegins, if_true, ho]

end Sequences

/-- A name, a colon and a value are taken one after the other. -/
theorem member_takes {room : Nat} {value : Reader Json} {k : String} (hk : k.length < room)
    {t rest : List Char} {j : Json} (h : TakesOff value t rest j) :
    TakesOff (member room value) ((Quoted.quote k).toList ++ ':' :: t) rest (k, j) := by
  intro offset
  obtain ⟨o, ho⟩ := Text.read_escape hk (':' :: (t ++ rest)) (offset + '"'.utf8Size)
  obtain ⟨o', ho'⟩ := h (o + ':'.utf8Size)
  have htext : (Quoted.quote k).toList ++ ':' :: t ++ rest =
      '"' :: ((Quoted.escape k).toList ++ ['"'] ++ ':' :: (t ++ rest)) := by
    simp [Quoted.quote, String.toList_append]
  refine ⟨o', ?_⟩
  rw [htext]
  unfold member
  show (Text.read room ⟨_, offset + '"'.utf8Size⟩ >>= _) = _
  simp only [ho, bind, Except.bind, Cursor.skipBlanks_cons (show isBlank ':' = false from rfl), if_true,
    Cursor.advance, ho']

end Json

/-! ### Values -/

namespace Value

open Document Json

theorem toList_quote (s : String) : (Quoted.quote s).toList = '"' :: ((Quoted.escape s).toList ++ ['"']) := by
  simp [Quoted.quote, String.toList_append]

/-- The characters of the text of a value. -/
def chars (v : Value) : List Char := (text v).toList

/-- The characters of a name and its value. -/
def memberChars (field : String × Value) : List Char := (Quoted.quote field.1).toList ++ ':' :: chars field.2

theorem toList_itemsText : ∀ items : List Value, (itemsText items).toList = [','].intercalate (items.map chars)
  | [] => rfl
  | [v] => by rw [itemsText, List.map_singleton, List.intercalate_singleton, chars]
  | v :: w :: rest => by
    have hmore := toList_itemsText (w :: rest)
    rw [List.map_cons] at hmore
    rw [itemsText, List.map_cons, List.map_cons, Rule.join_cons, ← hmore, chars]
    simp [String.toList_append]

theorem toList_fieldsText : ∀ fields : List (String × Value),
    (fieldsText fields).toList = [','].intercalate (fields.map memberChars)
  | [] => rfl
  | [field] => by
    rw [fieldsText, List.map_singleton, List.intercalate_singleton, memberChars, chars]
    simp [String.toList_append]
  | field :: w :: rest => by
    have hmore := toList_fieldsText (w :: rest)
    rw [List.map_cons] at hmore
    rw [fieldsText, List.map_cons, List.map_cons, Rule.join_cons, ← hmore, memberChars, chars]
    simp [String.toList_append]

theorem chars_string (s : String) : chars (.string s) = '"' :: ((Quoted.escape s).toList ++ ['"']) :=
  toList_quote s

theorem chars_array (items : List Value) :
    chars (.array items) = '[' :: ([','].intercalate (items.map chars) ++ [']']) := by
  rw [← toList_itemsText]
  simp [chars, text, String.toList_append]

theorem chars_object (fields : List (String × Value)) :
    chars (.object fields) = '\x7b' :: ([','].intercalate (fields.map memberChars) ++ ['\x7d']) := by
  rw [← toList_fieldsText]
  simp [chars, text, String.toList_append]

/-- What the text of an integer may begin with. -/
def numberHeads : List Char := "-0123456789".toList

/-- What is so of each of them. -/
theorem numberHeads_forall {p : Char → Prop} [DecidablePred p] (h : numberHeads.all (decide <| p ·) = true)
    {c : Char} (hc : c ∈ numberHeads) : p c := of_decide_eq_true (List.all_eq_true.mp h c hc)

theorem mem_numberHeads {c : Char} (h : c.isDigit = true) : c ∈ numberHeads := by
  simp only [Char.isDigit, Bool.and_eq_true, decide_eq_true_eq, ge_iff_le, UInt32.le_iff_toNat_le] at h
  obtain ⟨hlow, hhigh⟩ : 48 ≤ c.toNat ∧ c.toNat ≤ 57 := h
  rw [← Char.ofNat_toNat c]
  generalize c.toNat = n at hlow hhigh
  interval_cases n <;> decide

theorem toString_begins (n : Int) : ∃ x u, (toString n).toList = x :: u ∧ x ∈ numberHeads := by
  rw [Numeral.toList_toString]
  by_cases hn : n < 0
  · exact ⟨'-', Nat.toDigits 10 n.natAbs, by rw [if_pos hn]; rfl, by decide⟩
  · obtain ⟨x, u, hu⟩ := List.exists_cons_of_ne_nil (Nat.toDigits_ne_nil (n := n.natAbs) (b := 10))
    have hx : x ∈ Nat.toDigits 10 n.natAbs := hu ▸ List.mem_cons_self
    refine ⟨x, u, by rw [if_neg hn, hu]; rfl, mem_numberHeads ?_⟩
    exact Nat.isDigit_of_mem_toDigits (by decide) (by decide) hx

/-- The text of a value begins as an item may. -/
theorem chars_begins {v : Value} (h : v.FloatFree) : listBrackets.Begins v.chars := by
  cases v with
  | null => exact ⟨_, _, rfl, by decide⟩
  | boolean b => cases b <;> exact ⟨_, _, rfl, by decide⟩
  | string s => exact ⟨'"', _, chars_string s, by decide⟩
  | array items => exact ⟨'[', _, chars_array items, by decide⟩
  | object fields => exact ⟨'\x7b', _, chars_object fields, by decide⟩
  | number n =>
    cases n with
    | float x => exact absurd h id
    | integer n =>
      obtain ⟨x, u, hu, hx⟩ := toString_begins n.toInt
      obtain ⟨hblank, hclosing⟩ := numberHeads_forall (p := fun y => isBlank y = false ∧ y ≠ ']') (by decide) hx
      exact ⟨x, u, hu, hblank, hclosing, rfl⟩

/-! ### Reading values -/

section Reading

variable {room depth : Nat} {rest : List Char}

/-- A number is read as one from its first character on. -/
theorem value_number {offset : Nat} {x : Char} {t : List Char} (hx : x ∈ numberHeads) :
    Json.value room (depth + 1) ⟨x :: t, offset⟩ =
      (Numeral.read ⟨x :: t, offset⟩).map fun r => (.number r.1, r.2) := by
  obtain ⟨hblank, hnull, htrue, hfalse, hquote, hnumber⟩ := numberHeads_forall
    (p := fun y => isBlank y = false ∧ y ≠ 'n' ∧ y ≠ 't' ∧ y ≠ 'f' ∧ y ≠ '"' ∧ (y = '-' ∨ y.isDigit = true))
    (by decide) hx
  unfold Json.value
  simp only [Cursor.skipBlanks_cons hblank, if_neg hnull, if_neg htrue, if_neg hfalse, if_neg hquote,
    if_pos hnumber]

theorem integer_takes (n : Int64) (hrest : Ends rest) :
    TakesOff (Json.value room (depth + 1)) (chars (integer n)) rest (integer n).toJson := by
  intro offset
  obtain ⟨x, u, hu, hx⟩ := toString_begins n.toInt
  obtain ⟨offset', h⟩ := Numeral.read_toString n.le_toInt n.toInt_lt hrest offset
  refine ⟨offset', ?_⟩
  show Json.value room (depth + 1) ⟨(toString n.toInt).toList ++ rest, offset⟩ = _
  rw [hu, List.cons_append] at h ⊢
  rw [value_number hx, h]
  rfl

theorem string_takes {s : String} (hroom : (chars (.string s)).length < room) :
    TakesOff (Json.value room (depth + 1)) (chars (.string s)) rest (toJson (.string s)) := by
  intro offset
  have hescape := Text.length_le_escape s
  simp only [chars_string, List.length_cons, List.length_append, String.length_toList] at hroom
  have hlength : s.length < room := by omega
  obtain ⟨offset', h⟩ := Text.read_escape hlength rest (offset + '"'.utf8Size)
  refine ⟨offset', ?_⟩
  rw [chars_string, List.cons_append]
  show (Text.read room ⟨_, offset + '"'.utf8Size⟩).map _ = _
  rw [h]
  rfl

/-- An array is taken if each of its items is, one level deeper. -/
theorem array_takes {items : List Value} (hroom : (chars (.array items)).length < room)
    (h : ∀ v ∈ items, v.FloatFree ∧ (v.chars.length < room →
      ∀ rest, Ends rest → TakesOff (Json.value room (depth + 1)) v.chars rest v.toJson)) :
    TakesOff (Json.value room (depth + 2)) (chars (.array items)) rest (toJson (.array items)) := by
  intro offset
  rw [chars_array, List.length_cons, List.length_append] at hroom
  have hentries : List.Forall₂ (listBrackets.Entry (Json.value room (depth + 1))) (items.map chars)
      (items.map toJson) := by
    rw [List.forall₂_map_left_iff, List.forall₂_map_right_iff, List.forall₂_same]
    intro v hv
    have hlength := (Rule.infix_join (List.mem_map_of_mem (f := chars) hv)).length_le
    exact ⟨chars_begins (h v hv).1, (h v hv).2 (by omega)⟩
  have hjoin : ([','].intercalate (items.map chars)).length ≤ room := by omega
  obtain ⟨offset', h⟩ := sequenceOf_takes (by decide) rest hentries hjoin (offset + '['.utf8Size)
  refine ⟨offset', ?_⟩
  rw [chars_array, List.cons_append, toJson, mapNumbers_array]
  exact congrArg (Except.map fun r => ((.array r.1 : Json), r.2)) h

/-- An object with distinct names is taken if each of its values is, one level deeper. -/
theorem object_takes {fields : List (String × Value)} (hroom : (chars (.object fields)).length < room)
    (hkeys : (fields.map Prod.fst).Nodup) (h : ∀ field ∈ fields, field.2.chars.length < room →
      ∀ rest, Ends rest → TakesOff (Json.value room (depth + 1)) field.2.chars rest field.2.toJson) :
    TakesOff (Json.value room (depth + 2)) (chars (.object fields)) rest (toJson (.object fields)) := by
  intro offset
  rw [chars_object, List.length_cons, List.length_append] at hroom
  have hentries : List.Forall₂ (objectBrackets.Entry (Json.member room (Json.value room (depth + 1))))
      (fields.map memberChars) (fields.map fun field => (field.1, toJson field.2)) := by
    rw [List.forall₂_map_left_iff, List.forall₂_map_right_iff, List.forall₂_same]
    intro field hf
    have hlength := (Rule.infix_join (List.mem_map_of_mem (f := memberChars) hf)).length_le
    have hescape := Text.length_le_escape field.1
    rw [memberChars, toList_quote] at hlength
    simp only [List.cons_append, List.length_append, List.length_cons, String.length_toList] at hlength
    refine ⟨⟨'"', _, by rw [memberChars, toList_quote, List.cons_append], by decide⟩, fun rest hrest => ?_⟩
    exact member_takes (by omega) (h field hf (by omega) rest hrest)
  have hnodup : ((fields.map fun field => (field.1, toJson field.2)).map Prod.fst).Nodup := by
    rw [List.map_map]
    exact hkeys
  have hjoin : ([','].intercalate (fields.map memberChars)).length ≤ room := by omega
  obtain ⟨offset', h⟩ := sequenceOf_takes (by decide) rest hentries hjoin (offset + '\x7b'.utf8Size)
  refine ⟨offset', ?_⟩
  rw [chars_object, List.cons_append, toJson, mapNumbers_object]
  refine (congrArg (Except.map fun r => ((.object (Fields.ofList r.1) : Json), r.2)) h).trans ?_
  simp only [Except.map, Fields.ofList_of_nodup hnodup]
  rfl

/-- **The text of a value is taken as a whole**, and what it says is the value. -/
theorem value_takes {v : Value} : v.FloatFree → v.Distinct → ∀ {depth : Nat}, v.nesting ≤ depth →
    v.chars.length < room → ∀ rest, Ends rest → TakesOff (Json.value room (depth + 1)) v.chars rest v.toJson := by
  induction v using byParts with
  | null => exact fun _ _ _ _ _ rest _ offset => ⟨_, rfl⟩
  | boolean b =>
    intro _ _ depth _ _ rest _ offset
    cases b <;> exact ⟨_, rfl⟩
  | number n =>
    intro hfloat _ depth _ _ rest hrest
    cases n with
    | float x => exact absurd hfloat id
    | integer n => exact integer_takes n hrest
  | string s => exact fun _ _ _ _ hroom rest _ => string_takes hroom
  | array items ih =>
    intro hfloat hdistinct depth hdepth hroom rest _
    obtain ⟨depth, rfl⟩ : ∃ d, depth = d + 1 :=
      Nat.exists_eq_add_one.mpr (Nat.lt_of_lt_of_le (Nat.succ_pos _) hdepth)
    rw [FloatFree, every_array] at hfloat
    rw [distinct_array] at hdistinct
    rw [nesting_array_le] at hdepth
    exact array_takes hroom fun v hv => ⟨hfloat v hv, ih v hv (hfloat v hv) (hdistinct v hv) (hdepth v hv)⟩
  | object fields ih =>
    intro hfloat hdistinct depth hdepth hroom rest _
    obtain ⟨depth, rfl⟩ : ∃ d, depth = d + 1 :=
      Nat.exists_eq_add_one.mpr (Nat.lt_of_lt_of_le (Nat.succ_pos _) hdepth)
    rw [FloatFree, every_object] at hfloat
    rw [distinct_object] at hdistinct
    rw [nesting_object_le] at hdepth
    exact object_takes hroom hdistinct.1 fun field hf =>
      ih field hf (hfloat field hf) (hdistinct.2 field hf) (hdepth field hf)

end Reading

/-- **The text of a value without doubles is read back as the value**, if arrays and objects stand at
most 127 deep in one another. -/
theorem read_text {v : Value} (hfloat : v.FloatFree) (hdistinct : v.Distinct) (hdepth : v.nesting < 128) :
    Value.read (text v) = .ok v := by
  have hread : Json.read v.chars = .ok v.toJson := by
    have htakes := value_takes hfloat hdistinct (Nat.le_of_lt_succ hdepth) (Nat.lt_succ_self _)
    obtain ⟨offset, h⟩ := htakes [] .nil 0
    rw [List.append_nil] at h
    unfold Json.read document Cursor.start
    simp only [h, bind, Except.bind]
    rfl
  show (Json.read v.chars).map ofJson = _
  rw [hread]
  exact congrArg _ (ofJson_toJson hfloat.finite)

/-- A string with a quote, a backslash and two control characters in an array under a name with a
line feed, and the least integer. -/
theorem read_text_controls :
    let v : Value := .object [("b\n", .array [.string "\"\\\x01\x7f", .null]), ("a", integer Int64.minValue)]
    (v.FloatFree ∧ v.Distinct ∧ v.nesting < 128) ∧ Value.read (text v) = .ok v := by
  intro v
  have hv : v.FloatFree ∧ v.Distinct ∧ v.nesting < 128 := by decide
  exact ⟨hv, read_text hv.1 hv.2.1 hv.2.2⟩

end Value

end PathQuery
