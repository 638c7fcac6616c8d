/-
# Backslashes in a JSON text

A backslash stands only inside a string, where it begins an escape, and a string ends
with its quote. So what a reader of a part of a JSON text takes consists of escapes and
characters that are no backslash, and it ends with such a character if it holds any
(`Cursor.Past`). In a JSON text that is read as a whole each backslash begins an escape
(`Json.read_escaped`), and none is the last character (`Json.read_getLast`).

Key definitions: `Json.Escaped`, `Json.Cursor.Behind`, `Json.Cursor.Past`.
Key theorems: `Json.value_past`, `Json.read_escaped`, `Json.read_getLast`.
-/
import PathQuery.Json.Reader
import PathQuery.Proofs.Outcome

namespace PathQuery
namespace Json

/-- A text in which each backslash begins an escape: a letter or a code point. -/
inductive Escaped : List Char → Prop
  | nil : Escaped []
  | plain {c : Char} {t : List Char} : c ≠ '\\' → Escaped t → Escaped (c :: t)
  | letter {x y : Char} {t : List Char} : PathQuery.Quoted.unescapeLetter? x = some y → Escaped t →
      Escaped ('\\' :: x :: t)
  | codePoint {t : List Char} : Escaped t → Escaped ('\\' :: 'u' :: t)

namespace Escaped

theorem append {t u : List Char} (ht : Escaped t) (hu : Escaped u) : Escaped (t ++ u) := by
  induction ht with
  | nil => exact hu
  | plain hc _ ih => exact .plain hc ih
  | letter hx _ ih => exact .letter hx ih
  | codePoint _ ih => exact .codePoint ih

theorem of_plain : ∀ {t : List Char}, (∀ c ∈ t, c ≠ '\\') → Escaped t
  | [], _ => .nil
  | _ :: _, h => .plain (h _ List.mem_cons_self) (of_plain fun d hd => h d (List.mem_cons_of_mem _ hd))

end Escaped

namespace Cursor

/-- `d` stands at or behind `c` in the same text, with no half of an escape between. -/
def Behind (c d : Cursor) : Prop := ∃ u, c.rest = u ++ d.rest ∧ Escaped u

/-- `d` stands at `c`, or behind it and behind a character that is no backslash, with no
half of an escape between. -/
def Past (c d : Cursor) : Prop := ∃ u, c.rest = u ++ d.rest ∧ Escaped u ∧ u.getLast? ≠ some '\\'

theorem Behind.trans {c d e : Cursor} (h : Behind c d) (h' : Behind d e) : Behind c e := by
  obtain ⟨u, hu, hesc⟩ := h
  obtain ⟨v, hv, hesc'⟩ := h'
  exact ⟨u ++ v, by rw [hu, hv, List.append_assoc], hesc.append hesc'⟩

theorem Past.refl (c : Cursor) : Past c c := ⟨[], rfl, .nil, by simp⟩

theorem Past.trans {c d e : Cursor} (h : Past c d) (h' : Past d e) : Past c e := by
  obtain ⟨u, hu, hesc, hlast⟩ := h
  obtain ⟨v, hv, hesc', hlast'⟩ := h'
  refine ⟨u ++ v, by rw [hu, hv, List.append_assoc], hesc.append hesc', ?_⟩
  rw [List.getLast?_append]
  cases hl : v.getLast? with
  | none => exact hlast
  | some x => rwa [hl] at hlast'

/-- `d` stands behind a double quote that stands at or behind `c`, with no half of an
escape before it. -/
def Quoted (c d : Cursor) : Prop := ∃ u, c.rest = u ++ '"' :: d.rest ∧ Escaped u

theorem Behind.quoted {c d e : Cursor} (h : Behind c d) (h' : Quoted d e) : Quoted c e := by
  obtain ⟨u, hu, hesc⟩ := h
  obtain ⟨v, hv, hesc'⟩ := h'
  exact ⟨u ++ v, by rw [hu, hv, List.append_assoc], hesc.append hesc'⟩

theorem Quoted.past {c d : Cursor} (h : Quoted c d) : Past c d := by
  obtain ⟨u, hu, hesc⟩ := h
  have hquote : Escaped ['"'] := .plain (by decide) .nil
  exact ⟨u ++ ['"'], by rw [hu, List.append_assoc, List.singleton_append], hesc.append hquote, by simp⟩

theorem advance_rest {c : Cursor} {x : Char} {rest : List Char} (h : c.rest = x :: rest) :
    c.advance.rest = rest := by
  simp only [advance, h]

theorem advance_behind {c : Cursor} {x : Char} {rest : List Char} (h : c.rest = x :: rest) (hx : x ≠ '\\') :
    Behind c c.advance := ⟨[x], by rw [advance_rest h, h]; rfl, .plain hx .nil⟩

theorem advance_past {c : Cursor} {x : Char} {rest : List Char} (h : c.rest = x :: rest) (hx : x ≠ '\\') :
    Past c c.advance := ⟨[x], by rw [advance_rest h, h]; rfl, .plain hx .nil, by simpa using hx⟩

/-- A cursor that passes characters of one kind, none of them a backslash. -/
theorem past_takeWhile {c d : Cursor} {p : Char → Bool} (hp : p '\\' = false)
    (h : d.rest = c.rest.dropWhile p) : Past c d := by
  have hplain : ∀ x ∈ c.rest.takeWhile p, x ≠ '\\' := by
    rintro x hx rfl
    exact absurd (List.all_eq_true.mp List.all_takeWhile _ hx) (by simp [hp])
  refine ⟨c.rest.takeWhile p, by rw [h, List.takeWhile_append_dropWhile], .of_plain hplain, fun hlast => ?_⟩
  exact hplain _ (List.mem_of_getLast? hlast) rfl

theorem skipBlanks_past (c : Cursor) : Past c c.skipBlanks :=
  past_takeWhile (by decide) c.skipBlanks_rest

end Cursor

open Cursor

/-- A reader that always leaves its cursor past what it takes. -/
def Passes {α : Type} (r : Reader α) : Prop := ∀ c a d, r c = .ok (a, d) → Past c d

/-- A reader that does so from a character of one kind on. -/
def PassesFrom {α : Type} (p : Char → Bool) (r : Reader α) : Prop :=
  ∀ c x rest a d, c.rest = x :: rest → p x = true → r c = .ok (a, d) → Past c d

theorem refuse_ne_ok {α : Type} {fault : Fault} {c : Cursor} {a : α} : refuse fault c ≠ .ok a := nofun

/-! ### Words and numerals -/

theorem word_past : ∀ (ws : List Char), '\\' ∉ ws → Passes (word ws)
  | [], _, c, _, d, h => by
    cases h
    exact Past.refl c
  | w :: ws, hw, c, a, d, h => by
    unfold word at h
    split at h
    · cases h
    · rename_i x rest hr
      split at h
      · rename_i hx
        have hne : x ≠ '\\' := fun he => hw (by rw [← he, hx]; exact List.mem_cons_self)
        exact (advance_past hr hne).trans
          (word_past ws (fun hm => hw (List.mem_cons_of_mem _ hm)) _ _ _ h)
      · cases h

namespace Numeral

theorem someDigits_past : Passes someDigits := by
  intro c ds d h
  unfold someDigits at h
  split at h
  · cases h
  · rename_i ds' d' _ hd
    cases h
    rw [digits, Prod.mk.injEq] at hd
    rw [← hd.2]
    exact past_takeWhile (p := Char.isDigit) (by decide) rfl

theorem readWhole_past : Passes readWhole := by
  intro c ds d h
  obtain ⟨⟨ds', d'⟩, hd, h⟩ := bind_eq_ok.mp h
  simp only at h
  split at h
  · cases h
  · cases h
    exact someDigits_past _ _ _ hd

theorem readFraction_past : Passes readFraction := by
  intro c ds d h
  unfold readFraction at h
  split at h
  · rename_i rest hr
    obtain ⟨⟨ds', d'⟩, hd, h⟩ := bind_eq_ok.mp h
    cases h
    exact (advance_past hr (by decide)).trans (someDigits_past _ _ _ hd)
  · cases h
    exact Past.refl c

/-- A cursor before a character that is no backslash, if it is before one at all. -/
theorem advance_past_of_head {c : Cursor} {x : Char} (h : c.rest.head? = some x) (hx : x ≠ '\\') :
    Past c c.advance := by
  obtain ⟨rest, hr⟩ := List.head?_eq_some_iff.mp h
  exact advance_past hr hx

theorem readPower_past : Passes readPower := by
  intro c ds d h
  unfold readPower at h
  split at h
  · rename_i he
    have h1 : Past c c.advance := by
      rcases he with he | he
      · exact advance_past_of_head he (by decide)
      · exact advance_past_of_head he (by decide)
    obtain ⟨⟨ds', d'⟩, hd, h⟩ := bind_eq_ok.mp h
    cases h
    refine h1.trans (Past.trans ?_ (someDigits_past _ _ _ hd))
    split
    · rename_i hs
      rcases hs with hs | hs
      · exact advance_past_of_head (by simpa using hs) (show '-' ≠ '\\' by decide)
      · exact advance_past_of_head hs (by decide)
    · exact Past.refl _
  · cases h
    exact Past.refl c

theorem readParts_past : Passes readParts := by
  intro c a d h
  obtain ⟨⟨whole, d1⟩, h1, h⟩ := bind_eq_ok.mp h
  obtain ⟨⟨fraction, d2⟩, h2, h⟩ := bind_eq_ok.mp h
  obtain ⟨⟨power, d3⟩, h3, h⟩ := bind_eq_ok.mp h
  cases h
  refine Past.trans ?_ ((readWhole_past _ _ _ h1).trans
    ((readFraction_past _ _ _ h2).trans (readPower_past _ _ _ h3)))
  split
  · rename_i hs
    exact advance_past_of_head (by simpa using hs) (show '-' ≠ '\\' by decide)
  · exact Past.refl c

theorem read_past : Passes read := by
  intro c n d h
  obtain ⟨⟨a, d'⟩, h1, h⟩ := bind_eq_ok.mp h
  simp only at h
  split at h
  · cases h
    exact readParts_past _ _ _ h1
  · cases h

end Numeral

/-! ### Strings -/

namespace Text

theorem hex4_behind {c d : Cursor} {n : Nat} (h : hex4 c = .ok (n, d)) : Behind c d := by
  unfold hex4 at h
  simp only at h
  split at h
  · rename_i x1 x2 x3 x4 rest hr
    split at h
    · rename_i hhex
      cases h
      refine ⟨[x1, x2, x3, x4], hr, .of_plain ?_⟩
      rintro x hx rfl
      exact absurd (List.all_eq_true.mp hhex _ hx) (by decide)
    · split at h <;> cases h
  · split at h <;> cases h

theorem halfMark_rest {c d : Cursor} {x : Char} {u : Unit} (h : halfMark x c = .ok (u, d)) :
    c.rest = x :: d.rest := by
  unfold halfMark at h
  split at h
  · cases h
  · rename_i y rest hr
    split at h
    · rename_i hy
      cases h
      rw [advance_rest hr, hr, hy]
    · cases h

theorem codePoint_behind {c d : Cursor} {x : Char} (h : codePoint c = .ok (x, d)) : Behind c d := by
  obtain ⟨⟨n, d1⟩, h1, h⟩ := bind_eq_ok.mp h
  have hb := hex4_behind h1
  simp only at h
  split at h
  · cases h
  · split at h
    · obtain ⟨⟨_, d2⟩, h2, h⟩ := bind_eq_ok.mp h
      obtain ⟨⟨_, d3⟩, h3, h⟩ := bind_eq_ok.mp h
      obtain ⟨⟨low, d4⟩, h4, h⟩ := bind_eq_ok.mp h
      simp only at h
      split at h
      · rw [← (Prod.mk.inj (Except.ok.inj h)).2]
        obtain ⟨u, hu, hesc⟩ := hex4_behind h4
        refine hb.trans ⟨'\\' :: 'u' :: u, ?_, .codePoint hesc⟩
        rw [halfMark_rest h2, halfMark_rest h3, hu]
        rfl
      · cases h
    · rw [← (Prod.mk.inj (Except.ok.inj h)).2]
      exact hb

/-- An escape, from its backslash on. -/
theorem escape_behind {c d : Cursor} {x : Char} {rest : List Char} (hc : c.rest = '\\' :: rest)
    (h : escape c.advance = .ok (x, d)) : Behind c d := by
  unfold escape at h
  rw [advance_rest hc] at h
  cases rest with
  | nil => cases h
  | cons y rest =>
    have hd : c.advance.advance.rest = rest := advance_rest (advance_rest hc)
    dsimp only at h
    split at h
    · rename_i z hy
      cases h
      exact ⟨['\\', y], by rw [hc, hd]; rfl, .letter hy .nil⟩
    · split at h
      · rename_i hy
        obtain ⟨u, hu, hesc⟩ := codePoint_behind h
        exact ⟨'\\' :: 'u' :: u, by rw [hc, hy, ← hd, hu]; rfl, .codePoint hesc⟩
      · cases h

/-- The characters of a string end with its quote. -/
theorem chars_quoted : ∀ (room : Nat) {c d : Cursor} {xs : List Char},
    chars room c = .ok (xs, d) → c.Quoted d
  | 0, _, _, _, h => absurd h refuse_ne_ok
  | room + 1, c, d, xs, h => by
    unfold chars at h
    split at h
    · cases h
    · rename_i x rest hr
      split at h
      · rename_i hx
        cases h
        exact ⟨[], by rw [advance_rest hr, hr, hx, List.nil_append], .nil⟩
      · split at h
        · rename_i hx
          obtain ⟨⟨y, d1⟩, h1, h⟩ := bind_eq_ok.mp h
          obtain ⟨⟨ys, d2⟩, h2, h⟩ := bind_eq_ok.mp h
          cases h
          exact (escape_behind (hx ▸ hr) h1).quoted (chars_quoted room h2)
        · rename_i hx
          split at h
          · cases h
          · obtain ⟨⟨ys, d1⟩, h1, h⟩ := bind_eq_ok.mp h
            cases h
            exact (advance_behind hr hx).quoted (chars_quoted room h1)

theorem read_quoted {room : Nat} {c d : Cursor} {s : String} (h : read room c = .ok (s, d)) :
    c.Quoted d := by
  obtain ⟨⟨cs, d'⟩, h1, h⟩ := bind_eq_ok.mp h
  cases h
  exact chars_quoted room h1

end Text

/-! ### Values -/

theorem entriesOf_past {α : Type} {b : Brackets} {entry : Reader α} (hb : b.closing ≠ '\\')
    (he : PassesFrom b.begins entry) : ∀ room : Nat, PassesFrom b.begins (entriesOf b entry room)
  | 0, _, _, _, _, _, _, _, h => nomatch h
  | room + 1, c, y, t, as, d, hc, hy, h => by
    obtain ⟨⟨a, d1⟩, h1, h⟩ := bind_eq_ok.mp h
    have hp : Past c d1.skipBlanks := (he _ _ _ _ _ hc hy h1).trans d1.skipBlanks_past
    simp only at h
    split at h
    · cases h
    · rename_i x rest hr
      split at h
      · rename_i hx
        cases h
        exact hp.trans (advance_past hr (hx ▸ hb))
      · split at h
        · rename_i hx
          have hq := (hp.trans (advance_past hr (hx ▸ by decide))).trans (skipBlanks_past _)
          split at h
          · cases h
          · rename_i z rest' hr'
            split at h
            · cases h
            · split at h
              · rename_i hz
                obtain ⟨⟨as', d2⟩, h2, h⟩ := bind_eq_ok.mp h
                cases h
                exact hq.trans (entriesOf_past hb he room _ _ _ _ _ hr' hz h2)
              · cases h
        · cases h

theorem sequenceOf_past {α : Type} {b : Brackets} {room : Nat} {entry : Reader α}
    (hb : b.closing ≠ '\\') (he : PassesFrom b.begins entry) : Passes (sequenceOf b room entry) := by
  intro c as d h
  have hp := c.skipBlanks_past
  unfold sequenceOf at h
  simp only at h
  split at h
  · cases h
  · rename_i x rest hr
    split at h
    · rename_i hx
      cases h
      exact hp.trans (advance_past hr (hx ▸ hb))
    · split at h
      · rename_i hx
        exact hp.trans (entriesOf_past hb he room _ _ _ _ _ hr hx h)
      · cases h

theorem member_past {room : Nat} {value : Reader Json} (hv : Passes value) :
    PassesFrom (· == '"') (member room value) := by
  intro c x rest m d hr hx h
  obtain ⟨⟨name, d1⟩, h1, h⟩ := bind_eq_ok.mp h
  have hquote : x ≠ '\\' := by
    rintro rfl
    exact absurd hx (by decide)
  have hp := ((advance_behind hr hquote).quoted (Text.read_quoted h1)).past.trans d1.skipBlanks_past
  simp only at h
  split at h
  · cases h
  · rename_i x rest hr
    split at h
    · rename_i hx
      obtain ⟨⟨v, d2⟩, h2, h⟩ := bind_eq_ok.mp h
      cases h
      exact hp.trans ((advance_past hr (hx ▸ by decide)).trans (hv _ _ _ h2))
    · cases h

theorem value_past (room : Nat) : ∀ depth : Nat, Passes (value room depth)
  | 0, _, _, _, h => absurd h refuse_ne_ok
  | depth + 1, c, v, d, h => by
    refine c.skipBlanks_past.trans ?_
    unfold value at h
    simp only at h
    generalize c.skipBlanks = c at h ⊢
    split at h
    · cases h
    · rename_i x rest hr
      split at h
      · rename_i hx
        obtain ⟨⟨u, d1⟩, h1, h⟩ := map_eq_ok.mp h
        cases h
        exact (advance_past hr (hx ▸ by decide)).trans (word_past _ (by decide) _ _ _ h1)
      split at h
      · rename_i hx
        obtain ⟨⟨u, d1⟩, h1, h⟩ := map_eq_ok.mp h
        cases h
        exact (advance_past hr (hx ▸ by decide)).trans (word_past _ (by decide) _ _ _ h1)
      split at h
      · rename_i hx
        obtain ⟨⟨u, d1⟩, h1, h⟩ := map_eq_ok.mp h
        cases h
        exact (advance_past hr (hx ▸ by decide)).trans (word_past _ (by decide) _ _ _ h1)
      split at h
      · rename_i hx
        obtain ⟨⟨s, d1⟩, h1, h⟩ := map_eq_ok.mp h
        cases h
        exact ((advance_behind hr (hx ▸ by decide)).quoted (Text.read_quoted h1)).past
      split at h
      · obtain ⟨⟨n, d1⟩, h1, h⟩ := map_eq_ok.mp h
        cases h
        exact Numeral.read_past _ _ _ h1
      split at h
      · rename_i hx
        split at h
        · cases h
        · obtain ⟨⟨vs, d1⟩, h1, h⟩ := map_eq_ok.mp h
          cases h
          exact (advance_past hr (hx ▸ by decide)).trans
            (sequenceOf_past (by decide) (fun _ _ _ _ _ _ _ => value_past room depth _ _ _) _ _ _ h1)
      split at h
      · rename_i hx
        split at h
        · cases h
        · obtain ⟨⟨ms, d1⟩, h1, h⟩ := map_eq_ok.mp h
          cases h
          exact (advance_past hr (hx ▸ by decide)).trans
            (sequenceOf_past (by decide) (member_past (value_past room depth)) _ _ _ h1)
      · cases h

/-- A JSON text is passed as a whole. -/
theorem read_past {text : List Char} {v : Json} (h : read text = .ok v) :
    Escaped text ∧ text.getLast? ≠ some '\\' := by
  unfold read at h
  split at h
  · rename_i v' hv
    obtain ⟨⟨v1, d⟩, h1, hd⟩ := bind_eq_ok.mp hv
    simp only at hd
    split at hd
    · rename_i hnil
      obtain ⟨u, hu, hesc, hlast⟩ := (value_past _ _ _ _ _ h1).trans d.skipBlanks_past
      rw [List.isEmpty_iff.mp hnil, List.append_nil] at hu
      rw [← show (Cursor.start text).rest = text from rfl, hu]
      exact ⟨hesc, hlast⟩
    · cases hd
  · cases h

/-- **Each backslash of a JSON text begins an escape.** -/
theorem read_escaped {text : List Char} {v : Json} (h : read text = .ok v) : Escaped text := (read_past h).1

/-- A JSON text does not end with a backslash. -/
theorem read_getLast {text : List Char} {v : Json} (h : read text = .ok v) : text.getLast? ≠ some '\\' :=
  (read_past h).2

end Json
end PathQuery
