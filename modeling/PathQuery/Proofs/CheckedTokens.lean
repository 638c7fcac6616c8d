/-
# Names, strings, numbers and literals that check their positions

A token without an expression inside goes through its text by index: a quoted name and a raw string from
an index to the next, a literal from character to character, where a backtick counts the
backslashes before it. None of them looks outside its text (`identifier_safe`, `rawString_safe`,
`number_safe`, `literal_safe`).

A literal is where the two ways of reading differ: the plain one takes a backslash together with what
comes after it. After such a pair the backslashes before an index are even in number, so an odd
number means that the last of them belongs to what comes next (`literalFrom_ok`).

Key definitions: `Checked.quotedFrom`, `Checked.rawFrom`, `Checked.literalFrom`.
Key theorems: `Checked.identifier_safe`, `Checked.rawString_safe`, `Checked.number_safe`,
`Checked.literal_safe`.
-/
import PathQuery.Proofs.CheckedRules

namespace PathQuery

namespace Checked

variable {src : Source} {s : Span} {depth bound : Nat}

/-! ### Single characters and names -/

/-- A character and nothing else. -/
def single (src : Source) (rule : String) (c : Char) (s : Span) : Parser Unit := do
  let t ← bounded src rule s
  if src.charAt t.start ≠ some c then fail rule (.missingChar c) t.start
  else do
    let length ← difference t.stop t.start
    if length ≠ 1 then do
      let position ← sum src t.start 1
      fail rule .unexpectedChar position
    else pure ()

/-- A name without quotes. -/
def name (src : Source) (s : Span) : Parser String := do
  let t ← bounded src "unquoted-string" s
  if (src.charAt t.start).any CharClass.isNameStart then do
    let text ← slice src t
    match text.findIdx? (fun c => !CharClass.isNameChar c) with
    | some i => do
      let position ← sum src t.start i
      fail "unquoted-string" .nameChar position
    | none => do
      let text ← slice src t
      pure (String.ofList text)
  else fail "unquoted-string" .nameStart t.start

theorem single_safe {rule : String} {c : Char} :
    Safe src depth bound (single src rule c) (Token.single src rule c) := by
  refine .bounded fun t hlt hstop _ => .ite (fun _ => .fail ..) fun _ => .checked (difference_ok (by omega)) ?_
  exact .ite (fun _ => .checked (sum_ok (by omega)) (.fail ..)) fun _ => .pure _

theorem name_safe : Safe src depth bound (name src) (Token.name src) := by
  refine .bounded fun t hlt hstop _ => .ite (fun _ => .checked (slice_ok src t) ?_) fun _ => .fail ..
  cases h : (src.slice t).findIdx? (fun c => !CharClass.isNameChar c) with
  | some i =>
    have hi : i < (src.slice t).length := (List.findIdx?_eq_some_iff_findIdx_eq.1 h).1
    have hlength : (src.slice t).length = t.stop - t.start := src.length_slice hstop
    exact .checked (sum_ok (by omega)) (.fail ..)
  | none => exact .checked (slice_ok src t) (.pure _)

/-! ### Text between quotes -/

/-- The hexadecimal digits between two indices, if the text reaches that far and all of them are digits. -/
def hexDigits? (body : List Char) (low high : Nat) : Option (List Char) :=
  if high ≤ body.length then some ((body.drop low).take (high - low)) |>.filter (·.all CharClass.isHexDigit) else none

/-- The text between the quotes of a name, from an index of it on. -/
def quotedFrom (src : Source) (start : Nat) (body : List Char) (i : Nat) : Parser (List Char) :=
  if i < body.length then do
    let first ← sum src start 1
    let position ← sum src first i
    let c ← item body i
    let next ← sum src i 1
    if c = '\\' then
      match body[next]? with
      | none => fail "quoted-string" .quotedEscape position
      | some x =>
        if x = 'u' then do
          let low ← sum src i 2
          let high ← sum src i 6
          match hexDigits? body low high with
          | none => fail "quoted-string" .unicodeEscape position
          | some digits => (c :: x :: digits ++ ·) <$> quotedFrom src start body (i + 6)
        else
          match Quoted.unescapeLetter? x with
          | none => fail "quoted-string" .quotedEscape position
          | some y => do
            let _ ← sum src i 2
            (y :: ·) <$> quotedFrom src start body (i + 2)
    else if CharClass.isUnescaped c then (c :: ·) <$> quotedFrom src start body (i + 1)
    else fail "quoted-string" .quotedChar position
  else pure []
termination_by body.length - i

/-- What is left of a text after an index inside it. -/
theorem drop_of_getElem? {body : List Char} {i : Nat} {c : Char} (h : body[i]? = some c) :
    body.drop i = c :: body.drop (i + 1) := by
  obtain ⟨hi, rfl⟩ := List.getElem?_eq_some_iff.1 h
  exact List.drop_eq_getElem_cons hi

/-- An escaped code point is its four digits and what comes after them, or no escape. -/
theorem decodeQuoted_codePoint (body : List Char) (i position : Nat) :
    Token.decodeQuoted ('\\' :: 'u' :: body.drop (i + 2)) position =
      match hexDigits? body (i + 2) (i + 6) with
      | none => Rule.fail "quoted-string" .unicodeEscape position
      | some digits =>
        (Token.decodeQuoted (body.drop (i + 6)) (position + 6)).map ('\\' :: 'u' :: digits ++ ·) := by
  have hfour : i + 6 - (i + 2) = 4 := Nat.add_sub_add_left i 6 2
  unfold hexDigits?
  rw [hfour]
  by_cases hlong : i + 6 ≤ body.length
  · have hdigits : body.drop (i + 2) =
        body[i + 2] :: body[i + 3] :: body[i + 4] :: body[i + 5] :: body.drop (i + 6) := by
      rw [List.drop_eq_getElem_cons, List.drop_eq_getElem_cons, List.drop_eq_getElem_cons, List.drop_eq_getElem_cons]
    rw [if_pos hlong, hdigits, Token.decodeQuoted]
    by_cases hhex : [body[i + 2], body[i + 3], body[i + 4], body[i + 5]].all CharClass.isHexDigit
    · simp only [List.take_succ_cons, List.take_zero, Option.filter_some, hhex, if_true]
    · simp only [List.take_succ_cons, List.take_zero, Option.filter_some, hhex]
      rfl
  · have hshort : (body.drop (i + 2)).length < 4 := by
      rw [List.length_drop]
      omega
    rw [if_neg hlong]
    generalize body.drop (i + 2) = rest at hshort
    match rest, hshort with
    | [], _ | [_], _ | [_, _], _ | [_, _, _], _ => rfl

/-- What is left of the text after an index is what the plain reading has left to read. -/
theorem quotedFrom_gives {start : Nat} {body : List Char} (hbody : start + 1 + body.length ≤ src.size) (i : Nat) :
    Gives depth (quotedFrom src start body i) (Token.decodeQuoted (body.drop i) (start + 1 + i)) := by
  unfold quotedFrom
  by_cases hi : i < body.length
  · obtain ⟨c, hc⟩ : ∃ c, body[i]? = some c := ⟨_, List.getElem?_eq_getElem hi⟩
    rw [if_pos hi, drop_of_getElem? hc]
    refine .checked (sum_ok (by omega)) (.checked (sum_ok (by omega)) (.checked (item_ok hc)
      (.checked (sum_ok (by omega)) ?_)))
    -- an escape is told by the two characters at the index, which the plain reading takes together
    by_cases hslash : c = '\\'
    · rw [if_pos hslash, hslash]
      cases hx : body[i + 1]? with
      | none =>
        rw [List.drop_eq_nil_of_le (List.getElem?_eq_none_iff.1 hx)]
        exact .fail ..
      | some x =>
        rw [drop_of_getElem? hx]
        by_cases hu : x = 'u'
        · rw [hu, decodeQuoted_codePoint]
          refine .checked (sum_ok (by omega)) (.checked (sum_ok (by omega)) ?_)
          cases hexDigits? body (i + 2) (i + 6) with
          | none => exact .fail ..
          | some digits => exact (quotedFrom_gives hbody (i + 6)).map _
        · rw [Token.decodeQuoted.eq_def]
          simp only [if_neg hu, ↓reduceIte]
          cases Quoted.unescapeLetter? x with
          | none => exact .fail ..
          | some y => exact .checked (sum_ok (by omega)) ((quotedFrom_gives hbody (i + 2)).map _)
    · rw [if_neg hslash, Token.decodeQuoted.eq_def]
      simp only [if_neg hslash]
      exact .ite (fun _ => (quotedFrom_gives hbody (i + 1)).map _) fun _ => .fail ..
  · rw [if_neg hi, List.drop_eq_nil_of_le (Nat.le_of_not_lt hi)]
    exact .pure _
termination_by body.length - i

/-- A name between double quotes, of one character or more. -/
def quotedName (src : Source) (s : Span) : Parser String := do
  let t ← bounded src "quoted-string" s
  if src.charAt t.start ≠ some '"' then fail "quoted-string" (.missingChar '"') t.start
  else do
    let length ← difference t.stop t.start
    let final ← difference t.stop 1
    if length < 3 ∨ src.charAt final ≠ some '"' then fail "quoted-string" (.missingChar '"') final
    else do
      let start ← sum src t.start 1
      let body ← slice src ⟨start, final⟩
      String.ofList <$> quotedFrom src t.start body 0

/-- A name, with or without quotes. -/
def identifier (src : Source) (s : Span) : Parser String := firstOf src "identifier" [name src, quotedName src] s

/-- The text between the two quotes of a range ends inside it. -/
theorem length_body {t : Span} (hstop : t.stop ≤ src.size) (htwo : ¬ t.length < 2) :
    t.start + 1 + (src.slice t.inner).length ≤ src.size := by
  have hinner : t.inner.stop ≤ src.size := Nat.le_trans (Nat.sub_le _ _) hstop
  rw [src.length_slice hinner]
  simp only [Span.length, Span.inner] at htwo ⊢
  omega

theorem quotedName_safe : Safe src depth bound (quotedName src) (Token.quotedName src) := by
  refine .bounded fun t hlt hstop _ => .ite (fun _ => .fail ..) fun _ => ?_
  refine .checked (difference_ok (by omega)) (.checked (difference_ok (by omega)) ?_)
  refine .ite (fun _ => .fail ..) fun hclosed => .checked (sum_ok (by omega)) (.checked (slice_ok src _) ?_)
  have hthree : ¬ t.length < 3 := fun h => hclosed (.inl h)
  exact (quotedFrom_gives (length_body hstop (by omega)) 0).map _

theorem identifier_safe : Safe src depth bound (identifier src) (Token.identifier src) := fun s hs hbound =>
  firstOf_gives hs (.cons (name_safe s hs hbound) (.cons (quotedName_safe s hs hbound) .nil))

/-- The text between single quotes, from an index of it on. -/
def rawFrom (src : Source) (start : Nat) (body : List Char) (i : Nat) : Parser (List Char) :=
  if i < body.length then do
    let first ← sum src start 1
    let position ← sum src first i
    let c ← item body i
    let next ← sum src i 1
    if c = '\\' then
      match body[next]? with
      | none => fail "raw-string" .rawEscape position
      | some x => do
        let _ ← sum src i 2
        if x = '\'' ∨ x = '\\' then (x :: ·) <$> rawFrom src start body (i + 2)
        else if CharClass.isRaw x then ([c, x] ++ ·) <$> rawFrom src start body (i + 2)
        else fail "raw-string" .rawEscape position
    else if CharClass.isRaw c then (c :: ·) <$> rawFrom src start body (i + 1)
    else fail "raw-string" .rawChar position
  else pure []
termination_by body.length - i

theorem rawFrom_gives {start : Nat} {body : List Char} (hbody : start + 1 + body.length ≤ src.size) (i : Nat) :
    Gives depth (rawFrom src start body i) (Token.decodeRaw (body.drop i) (start + 1 + i)) := by
  unfold rawFrom
  by_cases hi : i < body.length
  · obtain ⟨c, hc⟩ : ∃ c, body[i]? = some c := ⟨_, List.getElem?_eq_getElem hi⟩
    rw [if_pos hi, drop_of_getElem? hc, Token.decodeRaw.eq_def]
    refine .checked (sum_ok (by omega)) (.checked (sum_ok (by omega)) (.checked (item_ok hc)
      (.checked (sum_ok (by omega)) ?_)))
    refine .ite (fun _ => ?_) fun _ => .ite (fun _ => (rawFrom_gives hbody (i + 1)).map _) fun _ => .fail ..
    cases hx : body[i + 1]? with
    | none =>
      rw [List.drop_eq_nil_of_le (List.getElem?_eq_none_iff.1 hx)]
      exact .fail ..
    | some x =>
      rw [drop_of_getElem? hx]
      have hrest : Gives depth (rawFrom src start body (i + 2))
          (Token.decodeRaw (body.drop (i + 2)) (start + 1 + i + 2)) := rawFrom_gives hbody (i + 2)
      exact .checked (sum_ok (by omega)) (.ite (fun _ => hrest.map _) fun _ =>
        .ite (fun _ => hrest.map _) fun _ => .fail ..)
  · rw [if_neg hi, List.drop_eq_nil_of_le (Nat.le_of_not_lt hi)]
    exact .pure _
termination_by body.length - i

/-- A text between single quotes. -/
def rawString (src : Source) (s : Span) : Parser String := do
  let t ← bounded src "raw-string" s
  let length ← difference t.stop t.start
  if length < 2 then fail "raw-string" .rawLength t.start
  else if src.charAt t.start ≠ some '\'' then fail "raw-string" .missingQuote t.start
  else do
    let final ← difference t.stop 1
    if src.charAt final ≠ some '\'' then fail "raw-string" .missingQuote final
    else do
      let start ← sum src t.start 1
      let body ← slice src ⟨start, final⟩
      String.ofList <$> rawFrom src t.start body 0

theorem rawString_safe : Safe src depth bound (rawString src) (Token.rawString src) := by
  refine .bounded fun t hlt hstop _ => .checked (difference_ok (by omega)) (.ite (fun _ => .fail ..) fun htwo => ?_)
  refine .ite (fun _ => .fail ..) fun _ => .checked (difference_ok (by omega)) (.ite (fun _ => .fail ..) fun _ => ?_)
  refine .checked (sum_ok (by omega)) (.checked (slice_ok src _) ?_)
  exact (rawFrom_gives (length_body hstop htwo) 0).map _

/-! ### Numbers -/

/-- The position after a minus sign, if one stands there. -/
def afterSign (src : Source) (start : Nat) : Except Fault Nat :=
  if src.charAt start == some '-' then sum src start 1 else pure start

/-- An integer of 64 bits. -/
def number (src : Source) (s : Span) : Parser Int64 := do
  let t ← bounded src "number" s
  let negative := src.charAt t.start == some '-'
  let start ← afterSign src t.start
  let digits ← slice src ⟨start, t.stop⟩
  if digits.isEmpty ∨ ¬ digits.all Char.isDigit then fail "number" (.missing "number") t.start
  else do
    let _ ← slice src t
    let size : Int := CharClass.natOfDigits digits
    let n := if negative then -size else size
    if Int64.minValue.toInt ≤ n ∧ n ≤ Int64.maxValue.toInt then pure (Int64.ofInt n)
    else fail "number" .numberRange t.start

theorem afterSign_ok {start : Nat} (hstart : start ≤ src.size) :
    afterSign src start = .ok (if src.charAt start == some '-' then start + 1 else start) := by
  unfold afterSign
  split
  · exact sum_ok (by omega)
  · rfl

theorem number_safe : Safe src depth bound (number src) (Token.number src) := by
  refine .bounded fun t hlt hstop _ => .checked (afterSign_ok (by omega)) (.checked (slice_ok src _) ?_)
  exact .ite (fun _ => .fail ..) fun _ => .checked (slice_ok src _) (.ite (fun _ => .pure _) fun _ => .fail ..)

/-- A range past the end of the text is a fault. -/
example : number (.ofString "12") ⟨1, 3⟩ 0 = .error (.range ⟨1, 3⟩) := by rfl

/-! ### Literals -/

/-- How many backslashes a text ends with. -/
def slashes (text : List Char) : Nat := (text.reverse.takeWhile (· == '\\')).length

/-- The text between backticks, from an index of it on, after what is made of the text before the index. -/
def literalFrom (body text : List Char) (i : Nat) : Except Fault (Option (List Char)) :=
  if i < body.length then do
    let c ← item body i
    if c ≠ Token.backtick then literalFrom body (text ++ [c]) (i + 1)
    else do
      let before ← part body 0 i
      if slashes before % 2 = 0 then pure none
      else literalFrom body (text.dropLast ++ [Token.backtick]) (i + 1)
  else pure (some text)
termination_by body.length - i

theorem slashes_concat (text : List Char) (c : Char) :
    slashes (text ++ [c]) = if c = '\\' then slashes text + 1 else 0 := by
  unfold slashes
  rw [List.reverse_append, List.reverse_singleton, List.singleton_append, List.takeWhile_cons]
  by_cases hc : c = '\\'
  · simp only [hc, beq_self_eq_true, if_true, List.length_cons]
  · have hne : (c == '\\') = false := beq_eq_false_iff_ne.2 hc
    simp only [hne, if_neg hc, Bool.false_eq_true, if_false, List.length_nil]

/-- What a backslash and the character after it stand for in a literal. -/
def unescapePair (x : Char) : List Char := if x = Token.backtick then [x] else ['\\', x]

theorem decodeLiteral_pair (x : Char) (rest : List Char) :
    Token.decodeLiteral ('\\' :: x :: rest) = (Token.decodeLiteral rest).map (unescapePair x ++ ·) := by
  rw [Token.decodeLiteral, if_pos rfl]
  unfold unescapePair
  by_cases hx : x = Token.backtick
  · simp only [if_pos hx, List.singleton_append]
  · simp only [if_neg hx]

section Literal

variable {body text : List Char} {i : Nat} {c x : Char}

theorem slashes_take (hc : body[i]? = some c) :
    slashes (body.take (i + 1)) = if c = '\\' then slashes (body.take i) + 1 else 0 := by
  rw [List.take_add_one, hc, Option.toList_some, slashes_concat]

theorem literalFrom_plain (hc : body[i]? = some c) (hplain : c ≠ Token.backtick) :
    literalFrom body text i = literalFrom body (text ++ [c]) (i + 1) := by
  obtain ⟨hi, -⟩ := List.getElem?_eq_some_iff.1 hc
  rw [literalFrom, if_pos hi, item_ok hc, ok_bind, if_pos hplain]

theorem literalFrom_backtick (hc : body[i]? = some Token.backtick) :
    literalFrom body text i = if slashes (body.take i) % 2 = 0 then pure none
      else literalFrom body (text.dropLast ++ [Token.backtick]) (i + 1) := by
  obtain ⟨hi, -⟩ := List.getElem?_eq_some_iff.1 hc
  rw [literalFrom, if_pos hi, item_ok hc, ok_bind, if_neg (not_not_intro rfl),
    part_ok (Nat.zero_le i) (Nat.le_of_lt hi), ok_bind, List.drop_zero, Nat.sub_zero]

theorem literalFrom_end (hi : body.length ≤ i) : literalFrom body text i = pure (some text) := by
  rw [literalFrom, if_neg (Nat.not_lt.2 hi)]

/-- After a pair the backslashes that were passed are still even in number. -/
theorem slashes_pair (hc : body[i]? = some '\\') (hx : body[i + 1]? = some x) (heven : slashes (body.take i) % 2 = 0) :
    slashes (body.take (i + 2)) % 2 = 0 := by
  have hone := slashes_take hc
  have htwo := slashes_take hx
  rw [if_pos rfl] at hone
  rw [htwo]
  split <;> omega

/-- A backslash after an even number of them goes with the next character: if that is a backtick, it is taken back. -/
theorem literalFrom_pair (hc : body[i]? = some '\\') (hx : body[i + 1]? = some x)
    (heven : slashes (body.take i) % 2 = 0) :
    literalFrom body text i = literalFrom body (text ++ unescapePair x) (i + 2) := by
  have hodd : slashes (body.take (i + 1)) % 2 ≠ 0 := by
    rw [slashes_take hc, if_pos rfl]
    omega
  rw [literalFrom_plain hc (by decide)]
  unfold unescapePair
  by_cases hback : x = Token.backtick
  · rw [literalFrom_backtick (hback ▸ hx), if_neg hodd, List.dropLast_concat, if_pos hback, hback]
  · rw [literalFrom_plain hx hback, if_neg hback, List.append_assoc, List.singleton_append]

theorem literalFrom_ok (body text : List Char) (i : Nat) (heven : slashes (body.take i) % 2 = 0) :
    literalFrom body text i = .ok ((Token.decodeLiteral (body.drop i)).map (text ++ ·)) := by
  cases hc : body[i]? with
  | none =>
    have hi : body.length ≤ i := List.getElem?_eq_none_iff.1 hc
    rw [literalFrom_end hi, List.drop_eq_nil_of_le hi, Token.decodeLiteral, Option.map_some, List.append_nil]
    rfl
  | some c =>
    obtain ⟨hi, -⟩ := List.getElem?_eq_some_iff.1 hc
    rw [drop_of_getElem? hc]
    by_cases hslash : c = '\\'
    · subst hslash
      cases hx : body[i + 1]? with
      | none =>
        -- the text ends with this backslash, which stands for itself
        have hend : body.length ≤ i + 1 := List.getElem?_eq_none_iff.1 hx
        rw [literalFrom_plain hc (by decide), literalFrom_end hend, List.drop_eq_nil_of_le hend]
        rfl
      | some x =>
        rw [literalFrom_pair hc hx heven, literalFrom_ok body _ (i + 2) (slashes_pair hc hx heven),
          drop_of_getElem? hx, decodeLiteral_pair, Option.map_map]
        simp only [Function.comp_def, List.append_assoc]
    · rw [Token.decodeLiteral.eq_def]
      simp only [if_neg hslash]
      by_cases hback : c = Token.backtick
      · rw [literalFrom_backtick (hback ▸ hc), if_pos heven, if_pos hback]
        rfl
      · have hzero : slashes (body.take (i + 1)) % 2 = 0 := by rw [slashes_take hc, if_neg hslash]
        rw [literalFrom_plain hc hback, if_neg hback, literalFrom_ok body _ (i + 1) hzero, Option.map_map]
        simp only [Function.comp_def, List.append_assoc, List.singleton_append]
termination_by body.length - i

theorem literalFrom_start (body : List Char) : literalFrom body [] 0 = .ok (Token.decodeLiteral body) := by
  rw [literalFrom_ok body [] 0 rfl, List.drop_zero]
  simp only [List.nil_append, Option.map_id']

end Literal

/-- A JSON text between backticks. -/
def literal (src : Source) (s : Span) : Parser Json := do
  let t ← bounded src "literal" s
  let length ← difference t.stop t.start
  if length < 2 then fail "literal" .literalBounds t.start
  else if src.charAt t.start ≠ some Token.backtick then fail "literal" (.missingChar Token.backtick) t.start
  else do
    let final ← difference t.stop 1
    if src.charAt final ≠ some Token.backtick then fail "literal" (.missingChar Token.backtick) final
    else do
      let start ← sum src t.start 1
      let body ← slice src ⟨start, final⟩
      match ← literalFrom body [] 0 with
      | none => fail "literal" .bareBacktick t.start
      | some text =>
        match Json.read text with
        | .ok v => pure v
        | .error e => fail "literal" (.json e) t.start

theorem literal_safe : Safe src depth bound (literal src) (Token.literal src) := by
  refine .bounded fun t hlt hstop _ => .checked (difference_ok (by omega)) (.ite (fun _ => .fail ..) fun _ => ?_)
  refine .ite (fun _ => .fail ..) fun _ => .checked (difference_ok (by omega)) (.ite (fun _ => .fail ..) fun _ => ?_)
  refine .checked (sum_ok (by omega)) (.checked (slice_ok src t.inner) (.checked (literalFrom_start _) ?_))
  cases Token.decodeLiteral (src.slice t.inner) with
  | none => exact .fail ..
  | some text =>
    dsimp only
    cases Json.read text with
    | ok v => exact .pure _
    | error e => exact .fail ..

end Checked

end PathQuery
