/-
# Parsing without a fault

Each form with its differences, sums and accesses checked, given the checked rule for the
expressions inside it. These are shorter than the form, so a form is safe up to a length if the
rule inside it is up to one less (`all_safe`).

The plain rule is given how many levels are left. The checked one counts the levels that it is
inside of, refuses one more than the limit, and counts back when it leaves an expression, be it
by a failure. Each level takes a character away, so at a depth the range is that much
shorter than the text, and no count leaves the reach of a position (`rule_safe`). So a checked parser never
meets a fault, and gives what the plain one gives (`parse_checked`).

Key definitions: `Checked.inside`, `Checked.rule`, `Checked.parse`, `Checked.parseIdentifier`.
Key theorems: `Checked.all_safe`, `Checked.rule_safe`, `Expr.parse_checked`.
-/
import PathQuery.Proofs.CheckedTokens
import PathQuery.Expr.Parse

namespace PathQuery

namespace Checked

variable {α β γ : Type} (src : Source) (checked : Span → Parser Expr)

/-! ### Operators -/

/-- One character that stands for a whole form. -/
def mark (rule : String) (c : Char) (a : α) (s : Span) : Parser α := (fun _ => a) <$> single src rule c s

/-- Two rules around a symbol that is neither at the start nor at the stop. -/
def splitInside (rule : String) (symbol : List Char) (width : Nat) (missing : Reason) (left : Span → Parser α)
    (right : Span → Parser β) (f : α → β → γ) (s : Span) : Parser γ := do
  let t ← bounded src rule s
  let low ← sum src t.start 1
  let high ← difference t.stop 1
  let cuts ← findAll src ⟨low, high⟩ symbol
  match ← splitSearch src t width left right cuts with
  | some (a, b) => pure (f a b)
  | none => fail rule missing t.start

/-- Two expressions around a symbol. -/
def joined (rule symbol : String) (op : Operator) : Span → Parser Expr :=
  splitInside src rule symbol.toList symbol.length (.noSplit "binary-expression") checked checked (.binary op)

/-- The first of several comparisons that has two sides. -/
def compared (t : Span) : List Comparator → Parser (Option Expr)
  | [] => pure none
  | c :: rest => do
    let cuts ← findAll src t c.symbol.toList
    match ← splitSearch src t c.symbol.length checked checked cuts with
    | some (l, r) => pure (some (.binary (.compare c) l r))
    | none => compared t rest

/-- Two expressions around the symbol of a comparison. -/
def comparison (s : Span) : Parser Expr := do
  let t ← bounded src "comparator-expression" s
  match ← compared src checked t Comparator.all with
  | some e => pure e
  | none => fail "comparator-expression" (.noSplit "comparator expression") t.start

/-- An exclamation mark and an expression. -/
def negated (s : Span) : Parser Expr := do
  let t ← bounded src "not-expression" s
  if src.charAt t.start ≠ some '!' then fail "not-expression" (.missingChar '!') t.start
  else do
    let start ← sum src t.start 1
    .not <$> checked ⟨start, t.stop⟩

/-- An expression between parentheses. -/
def parenthesised (s : Span) : Parser Expr := do
  let t ← bounded src "paren-expression" s
  if src.charAt t.start ≠ some '(' then fail "paren-expression" (.missingChar '(') t.start
  else do
    let length ← difference t.stop t.start
    let final ← difference t.stop 1
    if length < 2 ∨ src.charAt final ≠ some ')' then fail "paren-expression" (.missingChar ')') final
    else do
      let start ← sum src t.start 1
      .paren <$> checked ⟨start, final⟩

/-! ### Lists, objects and calls -/

/-- A list of expressions between square brackets. -/
def listOf (s : Span) : Parser Selector := .list <$> multiSelect src '[' ']' checked s

/-- A name, a colon and an expression. -/
def keyValue : Span → Parser Entry :=
  splitInside src "keyval-expr" [':'] 1 (.noSplit "keyval-expr") (identifier src) checked .mk

/-- A list of names and expressions between braces. -/
def hashOf (s : Span) : Parser Selector := .hash <$> multiSelect src '\x7b' '\x7d' (keyValue src checked) s

/-- An ampersand and an expression. -/
def reference (s : Span) : Parser Expr := do
  let t ← bounded src "expression-type" s
  if src.charAt t.start ≠ some '&' then fail "expression-type" (.missingChar '&') t.start
  else do
    let start ← sum src t.start 1
    checked ⟨start, t.stop⟩

/-- An argument of a function. -/
def argument : Span → Parser Argument :=
  firstOf src "function-arg" [fun s => .value <$> checked s, fun s => .reference <$> reference src checked s]

/-- Parentheses with nothing but spaces between them. -/
def noArguments (s : Span) : Parser (List Argument) := do
  let t ← bounded src "no-args" s
  if src.charAt t.start ≠ some '(' then fail "no-args" (.missingChar '(') t.start
  else do
    let start ← sum src t.start 1
    let close ← trimLeft src start t.stop
    if t.stop ≤ close ∨ src.charAt close ≠ some ')' then fail "no-args" (.missingChar ')') close
    else do
      let stop ← sum src close 1
      if stop ≠ t.stop then fail "no-args" .unexpectedChar stop else pure []

/-- What a function is given. -/
def arguments : Span → Parser (List Argument) :=
  firstOf src "function-arguments" [noArguments src, multiSelect src '(' ')' (argument src checked)]

/-- The name of a function, from its failure as a name. -/
def functionName (t : Span) (paren : Nat) : Parser String := do
  match ← attempt (name src ⟨t.start, paren⟩) with
  | .ok a => pure a
  | .error f => fail "function-expression" (.functionName f.reason) t.start

/-- A name and arguments between parentheses. -/
def call (s : Span) : Parser Selector := do
  let t ← bounded src "function-expression" s
  let found ← findChar src t '('
  let paren := found.getD t.start
  if paren = t.start then fail "function-expression" (.missing "function") t.start
  else do
    let name ← functionName src t paren
    .call name <$> arguments src checked ⟨paren, t.stop⟩

/-! ### Dots and brackets -/

/-- A star on its own. -/
def star : Span → Parser Selector := mark src "star-expression" '*' .star

/-- A name on its own. -/
def field (s : Span) : Parser Selector := .identifier <$> identifier src s

/-- What may stand after a dot. -/
def afterDot : Span → Parser Selector :=
  firstOf src "sub-expression-right"
    [field src, listOf src checked, hashOf src checked, call src checked, star src]

/-- An expression, a dot and a selector. -/
def dotted : Span → Parser Expr :=
  splitInside src "sub-expression" ['.'] 1 (.noSplit "sub-expression") checked (afterDot src checked) .dot

/-- A bound of a slice, or nothing but spaces. -/
def sliceBound (s : Span) : Parser (Option Int64) := do
  within src s
  let text ← slice src s
  if text.all (· == ' ') then pure none else some <$> number src s

/-- The position after a colon, if there is one, or the stop of a range. -/
def afterColon (colon : Option Nat) (stop : Nat) : Except Fault Nat :=
  match colon with
  | some p => sum src p 1
  | none => pure stop

/-- Up to three bounds with colons between them. -/
def bounds (s : Span) : Parser Slice := do
  let t ← bounded src "slice-expression" s
  match ← findChar src t ':' with
  | none => fail "slice-expression" (.missing "slice expression") t.start
  | some first => do
    let next ← sum src first 1
    let second ← findChar src ⟨next, t.stop⟩ ':'
    let third ← afterColon src second t.stop
    let start ← sliceBound src ⟨t.start, first⟩
    let stop ← sliceBound src ⟨next, second.getD t.stop⟩
    let step ← sliceBound src ⟨third, t.stop⟩
    pure ⟨start, stop, step⟩

/-- What stands between square brackets that hold something else than a filter. -/
def bracketContent : Span → Parser Bracket :=
  firstOf src "bracket-specifier-content"
    [fun s => .number <$> number src s, mark src "star-expression" '*' .star, fun s => .slice <$> bounds src s]

/-- Square brackets. -/
def bracket (s : Span) : Parser Bracket := do
  let t ← bounded src "bracket-specifier" s
  if src.charAt t.start ≠ some '[' then fail "bracket-specifier" (.missingChar '[') t.start
  else do
    let length ← difference t.stop t.start
    let final ← difference t.stop 1
    if length < 2 ∨ src.charAt final ≠ some ']' then fail "bracket-specifier" (.missingChar ']') final
    else if length = 2 then pure .flatten
    else do
      let next ← sum src t.start 1
      if src.charAt next = some '?' then do
        let start ← sum src t.start 2
        .filter <$> checked ⟨start, final⟩
      else bracketContent src ⟨next, final⟩

/-- An expression and square brackets. -/
def indexedLeft : Span → Parser Expr :=
  splitInside src "index-expression with lhs-expression" ['['] 0 (.noSplit "index-expression with lhs-expression")
    checked (bracket src checked) .indexOf

/-- Square brackets, with or without an expression before them. -/
def indexed (s : Span) : Parser Expr := do
  let t ← bounded src "index-expression" s
  firstOf src "index-expression" [indexedLeft src checked, fun s => .index <$> bracket src checked s] t

/-! ### All of them -/

/-- A selector as an expression. -/
def alone (selector : Span → Parser Selector) (s : Span) : Parser Expr := .selector <$> selector s

/-- The forms, in the order in which they are tried. -/
def all : List (Span → Parser Expr) :=
  [dotted src checked,
    indexed src checked,
    comparison src checked,
    joined src checked "or-expression" "||" .or,
    alone (field src),
    joined src checked "and-expression" "&&" .and,
    negated src checked,
    parenthesised src checked,
    alone (star src),
    alone (listOf src checked),
    alone (hashOf src checked),
    fun s => .literal <$> literal src s,
    alone (call src checked),
    joined src checked "pipe-expression" "|" .pipe,
    fun s => .raw <$> rawString src s,
    mark src "current-node" '@' .current]

/-! ### Forms are safe -/

section Safety

variable {src} {checked} {nested : Rule Expr} {depth bound : Nat}

theorem mark_safe {rule : String} {c : Char} {a : α} :
    Safe src depth bound (mark src rule c a) (Form.mark src rule c a) :=
  fun s hs hbound => (single_safe s hs hbound).map _

/-- Both sides of a cut that leaves something on each are shorter than the whole. -/
theorem splitSearch_inside {left : Span → Parser α} {right : Span → Parser β} {l : Rule α} {r : Rule β}
    (hl : Safe src depth bound left l) (hr : Safe src depth bound right r) {t : Span} {cuts : List Nat} {width : Nat}
    (hstop : t.stop ≤ src.size) (hbound : t.stop ≤ t.start + (bound + 1))
    (hcuts : ∀ p ∈ cuts, t.start ≤ p ∧ p < t.stop ∧ t.start < p + width ∧ p + width ≤ t.stop) :
    Gives depth (splitSearch src t width left right cuts) (.ok (Rule.firstSplit t cuts width l r)) := by
  refine splitSearch_gives fun p hp => ?_
  have hp := hcuts p hp
  exact ⟨by omega, hl.range (by omega) (by omega) (by omega), hr.range (by omega) hstop (by omega)⟩

/-- A cut may leave less than the symbol out: an opening bracket belongs to what is on its right. -/
theorem splitInside_safe {left : Span → Parser α} {right : Span → Parser β} {l : Rule α} {r : Rule β} {rule : String}
    {symbol : List Char} {width : Nat} {missing : Reason} {f : α → β → γ} {body : Span → Except Failure γ}
    (hl : Safe src depth bound left l) (hr : Safe src depth bound right r) (hwidth : width ≤ symbol.length)
    (hbody : ∀ t : Span, body t = (Rule.firstSplit t (src.findAll t.inner symbol) width l r).elim
      (Rule.fail rule missing t.start) fun sides => .ok (f sides.1 sides.2)) :
    Safe src depth (bound + 1) (splitInside src rule symbol width missing left right f)
      (fun s => Token.bounded src rule s >>= body) := by
  refine .bounded fun t hlt hstop hbound => ?_
  refine .checked (sum_ok (by omega)) (.checked (difference_ok (by omega)) (.checked (findAll_ok src t.inner _) ?_))
  refine (splitSearch_inside hl hr hstop hbound fun p hp => ?_).andThen ?_
  · obtain ⟨hlow, hhigh⟩ := Source.findAll_bounds hp
    simp only [Span.inner] at hlow hhigh
    omega
  · rw [hbody]
    cases Rule.firstSplit t (src.findAll t.inner symbol) width l r with
    | none => exact .fail ..
    | some sides => exact .pure _

theorem joined_safe {rule symbol : String} {op : Operator} (hnested : Safe src depth bound checked nested) :
    Safe src depth (bound + 1) (joined src checked rule symbol op) (Form.joined src nested rule symbol op) :=
  splitInside_safe hnested hnested (Nat.le_of_eq String.length_toList.symm) fun t => by
    cases Rule.firstSplit t (src.findAll t.inner symbol.toList) symbol.length nested nested <;> rfl

theorem symbol_length_pos (c : Comparator) : 0 < c.symbol.toList.length := by
  cases c <;> decide

/-- A comparison is looked for at the start of the range as well, where its left side is empty. -/
theorem compared_gives (hnested : Safe src depth bound checked nested) {t : Span} (hstop : t.stop ≤ src.size)
    (hbound : t.stop ≤ t.start + (bound + 1)) : ∀ comparators : List Comparator,
      Gives depth (compared src checked t comparators) (.ok (comparators.findSome? fun c =>
        (Rule.firstSplit t (src.findAll t c.symbol.toList) c.symbol.length nested nested).map
          fun sides => .binary (.compare c) sides.1 sides.2))
  | [] => .pure _
  | c :: rest => by
    have hpos := symbol_length_pos c
    have hlength : c.symbol.toList.length = c.symbol.length := String.length_toList
    unfold compared
    rw [List.findSome?_cons]
    refine .checked (findAll_ok src t _) ((splitSearch_inside hnested hnested hstop hbound fun p hp => ?_).andThen ?_)
    · obtain ⟨hlow, hhigh⟩ := Source.findAll_bounds hp
      omega
    · cases Rule.firstSplit t (src.findAll t c.symbol.toList) c.symbol.length nested nested with
      | none => exact compared_gives hnested hstop hbound rest
      | some sides => exact .pure _

theorem comparison_safe (hnested : Safe src depth bound checked nested) :
    Safe src depth (bound + 1) (comparison src checked) (Form.comparison src nested) := by
  refine .bounded fun t hlt hstop hbound => (compared_gives hnested hstop hbound Comparator.all).andThen ?_
  dsimp only
  cases Comparator.all.findSome? fun c : Comparator =>
      (Rule.firstSplit t (src.findAll t c.symbol.toList) c.symbol.length nested nested).map
        fun sides => Expr.binary (.compare c) sides.1 sides.2 with
  | none => exact .fail ..
  | some e => exact .pure _

theorem negated_safe (hnested : Safe src depth bound checked nested) :
    Safe src depth (bound + 1) (negated src checked) (Form.negated src nested) := by
  refine .bounded fun t hlt hstop hbound => .ite (fun _ => .fail ..) fun _ => .checked (sum_ok (by omega)) ?_
  exact (hnested.range hlt hstop (by omega)).map _

theorem parenthesised_safe (hnested : Safe src depth bound checked nested) :
    Safe src depth (bound + 1) (parenthesised src checked) (Form.parenthesised src nested) := by
  refine .bounded fun t hlt hstop hbound => .ite (fun _ => .fail ..) fun _ => ?_
  refine .checked (difference_ok (by omega)) (.checked (difference_ok (by omega)) ?_)
  refine .ite (fun _ => .fail ..) fun h => ?_
  have htwo : ¬ t.length < 2 := fun hlength => h (.inl hlength)
  unfold Span.length at htwo
  exact .checked (sum_ok (by omega)) ((hnested.range (by omega) (by omega) (by omega)).map _)

theorem listOf_safe (hnested : Safe src depth bound checked nested) :
    Safe src depth (bound + 1) (listOf src checked) (Form.listOf src nested) :=
  fun s hs hbound => (multiSelect_safe hnested s hs hbound).map _

theorem keyValue_safe (hnested : Safe src depth bound checked nested) :
    Safe src depth (bound + 1) (keyValue src checked) (Form.keyValue src nested) :=
  splitInside_safe identifier_safe hnested (Nat.le_refl 1) fun t => by
    cases Rule.firstSplit t (src.findAll t.inner [':']) 1 (Token.identifier src) nested <;> rfl

theorem hashOf_safe (hnested : Safe src depth bound checked nested) :
    Safe src depth (bound + 1) (hashOf src checked) (Form.hashOf src nested) :=
  fun s hs hbound => (multiSelect_safe ((keyValue_safe hnested).mono (Nat.le_succ _)) s hs hbound).map _

theorem reference_safe (hnested : Safe src depth bound checked nested) :
    Safe src depth (bound + 1) (reference src checked) (Form.reference src nested) := by
  refine .bounded fun t hlt hstop hbound => .ite (fun _ => .fail ..) fun _ => .checked (sum_ok (by omega)) ?_
  exact hnested.range hlt hstop (by omega)

/-- An argument is an expression of its own, so it is safe no further than these are. -/
theorem argument_safe (hnested : Safe src depth bound checked nested) :
    Safe src depth bound (argument src checked) (Form.argument src nested) := by
  intro s hs hbound
  have hreference := (reference_safe hnested).mono (Nat.le_succ bound) s hs hbound
  exact firstOf_gives hs (.cons ((hnested s hs hbound).map _) (.cons (hreference.map _) .nil))

theorem noArguments_safe : Safe src depth bound (noArguments src) (Form.noArguments src) := by
  refine .bounded fun t hlt hstop _ => .ite (fun _ => .fail ..) fun _ => .checked (sum_ok (by omega)) ?_
  refine .checked (trimLeft_ok (by omega) hstop) (.ite (fun _ => .fail ..) fun hclose => ?_)
  have hlt : ¬ t.stop ≤ src.trimLeft ⟨t.start + 1, t.stop⟩ := fun h => hclose (.inl h)
  exact .checked (sum_ok (by omega)) (.ite (fun _ => .fail ..) fun _ => .pure _)

theorem arguments_safe (hnested : Safe src depth bound checked nested) :
    Safe src depth (bound + 1) (arguments src checked) (Form.arguments src nested) := by
  intro s hs hbound
  exact firstOf_gives hs (.cons (noArguments_safe s hs hbound)
    (.cons (multiSelect_safe (argument_safe hnested) s hs hbound) .nil))

theorem functionName_gives {t : Span} {paren : Nat} (hparen : t.start ≤ paren) (hsize : paren ≤ src.size) :
    Gives depth (functionName src t paren) (Form.functionName src t paren) := by
  have hname : Gives depth (name src ⟨t.start, paren⟩) (Token.name src ⟨t.start, paren⟩) :=
    name_safe.range hparen hsize (Nat.le_add_left paren t.start)
  unfold functionName Form.functionName
  refine .attempt hname ?_
  cases Token.name src ⟨t.start, paren⟩ with
  | ok a => exact .pure _
  | error f => exact .fail ..

/-- A parenthesis after a name leaves the name at the start. -/
theorem call_safe (hnested : Safe src depth bound checked nested) :
    Safe src depth (bound + 1) (call src checked) (Form.call src nested) := by
  refine .bounded fun t hlt hstop hbound => .checked (findChar_ok src t '(') (.ite (fun _ => .fail ..) fun hne => ?_)
  have hparen : t.start ≤ (src.findChar t '(').getD t.start ∧ (src.findChar t '(').getD t.start < t.stop := by
    cases h : src.findChar t '(' with
    | none => exact ⟨Nat.le_refl _, hlt⟩
    | some p => exact src.findChar_bounds h
  refine (functionName_gives hparen.1 (by omega)).bind fun name _ => ?_
  exact ((arguments_safe hnested).range (by omega) hstop (by omega)).map _

theorem field_safe : Safe src depth bound (field src) (Form.identifier src) :=
  fun s hs hbound => (identifier_safe s hs hbound).map _

theorem afterDot_safe (hnested : Safe src depth bound checked nested) :
    Safe src depth (bound + 1) (afterDot src checked) (Form.afterDot src nested) := by
  intro s hs hbound
  exact firstOf_gives hs (.cons (field_safe s hs hbound) (.cons (listOf_safe hnested s hs hbound)
    (.cons (hashOf_safe hnested s hs hbound) (.cons (call_safe hnested s hs hbound)
      (.cons (mark_safe s hs hbound) .nil)))))

theorem dotted_safe (hnested : Safe src depth bound checked nested) :
    Safe src depth (bound + 1) (dotted src checked) (Form.dotted src nested) :=
  splitInside_safe hnested ((afterDot_safe hnested).mono (Nat.le_succ _)) (Nat.le_refl 1) fun t => by
    cases Rule.firstSplit t (src.findAll t.inner ['.']) 1 nested (Form.afterDot src nested) <;> rfl

theorem sliceBound_safe : Safe src depth bound (sliceBound src) (Form.sliceBound src) := by
  intro s hs hbound
  refine .checked (within_ok hs) (.checked (slice_ok src s) (.ite (fun _ => .pure _) fun _ => ?_))
  exact (number_safe s hs hbound).map _

theorem afterColon_ok {colon : Option Nat} {stop : Nat} (h : ∀ p ∈ colon, p < src.size) :
    afterColon src colon stop = .ok ((colon.map (· + 1)).getD stop) := by
  cases colon with
  | none => rfl
  | some p =>
    have hp := h p rfl
    exact sum_ok (by omega)

/-- Colons cut a range into ranges. -/
theorem bounds_safe : Safe src depth bound (bounds src) (Form.slice src) := by
  refine .bounded fun t hlt hstop _ => .checked (findChar_ok src t ':') ?_
  cases hfirst : src.findChar t ':' with
  | none => exact .fail ..
  | some first =>
    obtain ⟨hlow, hhigh⟩ := src.findChar_bounds hfirst
    refine .checked (sum_ok (by omega)) (.checked (findChar_ok src ⟨first + 1, t.stop⟩ ':') ?_)
    have hcolon : ∀ p ∈ src.findChar ⟨first + 1, t.stop⟩ ':', first + 1 ≤ p ∧ p < t.stop := fun p hp =>
      src.findChar_bounds hp
    dsimp only
    generalize src.findChar ⟨first + 1, t.stop⟩ ':' = second at hcolon ⊢
    have hsecond : first + 1 ≤ second.getD t.stop ∧ second.getD t.stop ≤ t.stop := by
      cases second with
      | none => exact ⟨hhigh, Nat.le_refl _⟩
      | some p => exact ⟨(hcolon p rfl).1, Nat.le_of_lt (hcolon p rfl).2⟩
    have hthird : (second.map (· + 1)).getD t.stop ≤ t.stop := by
      cases second with
      | none => exact Nat.le_refl _
      | some p => exact (hcolon p rfl).2
    refine .checked (afterColon_ok fun p hp => Nat.lt_of_lt_of_le (hcolon p hp).2 hstop) ?_
    refine (sliceBound_safe.range hlow (by omega) (Nat.le_add_left _ _)).bind fun start _ => ?_
    refine (sliceBound_safe.range hsecond.1 (by omega) (Nat.le_add_left _ _)).bind fun stop _ => ?_
    exact (sliceBound_safe.range hthird hstop (Nat.le_add_left _ _)).bind fun step _ => .pure _

theorem bracketContent_safe : Safe src depth bound (bracketContent src) (Form.bracketContent src) := by
  intro s hs hbound
  exact firstOf_gives hs (.cons ((number_safe s hs hbound).map _) (.cons (mark_safe s hs hbound)
    (.cons ((bounds_safe s hs hbound).map _) .nil)))

theorem bracket_safe (hnested : Safe src depth bound checked nested) :
    Safe src depth (bound + 1) (bracket src checked) (Form.bracket src nested) := by
  refine .bounded fun t hlt hstop hbound => .ite (fun _ => .fail ..) fun _ => ?_
  refine .checked (difference_ok (by omega)) (.checked (difference_ok (by omega)) ?_)
  refine .ite (fun _ => .fail ..) fun h => ?_
  have htwo : ¬ t.length < 2 := fun hlength => h (.inl hlength)
  refine .ite (fun _ => .pure _) fun hlength => ?_
  unfold Span.length at htwo hlength
  have hfilter : Gives depth (checked ⟨t.start + 2, t.stop - 1⟩) (nested ⟨t.start + 2, t.stop - 1⟩) :=
    hnested.range (by omega) (by omega) (by omega)
  have hcontent : Gives depth (bracketContent src t.inner) (Form.bracketContent src t.inner) :=
    bracketContent_safe.range (by omega) (by omega) (Nat.le_add_left _ _)
  exact .checked (sum_ok (by omega)) (.ite (fun _ => .checked (sum_ok (by omega)) (hfilter.map _)) fun _ => hcontent)

theorem indexedLeft_safe (hnested : Safe src depth bound checked nested) :
    Safe src depth (bound + 1) (indexedLeft src checked) (Form.indexedLeft src nested) :=
  splitInside_safe hnested ((bracket_safe hnested).mono (Nat.le_succ _)) (Nat.zero_le 1) fun t => by
    cases Rule.firstSplit t (src.findAll t.inner ['[']) 0 nested (Form.bracket src nested) <;> rfl

theorem indexed_safe (hnested : Safe src depth bound checked nested) :
    Safe src depth (bound + 1) (indexed src checked) (Form.indexed src nested) := by
  refine .bounded fun t hlt hstop hbound => ?_
  have ht : src.Holds t := ⟨Nat.le_of_lt hlt, hstop⟩
  exact firstOf_gives ht (.cons (indexedLeft_safe hnested t ht hbound)
    (.cons ((bracket_safe hnested t ht hbound).map _) .nil))

theorem alone_safe {selector : Span → Parser Selector} {rule : Rule Selector} (h : Safe src depth bound selector rule) :
    Safe src depth bound (alone selector) (Form.alone rule) :=
  fun s hs hbound => (h s hs hbound).map _

/-- **Each form is safe on what is longer by one than what the rule inside it is safe on.** -/
theorem all_safe (hnested : Safe src depth bound checked nested) :
    List.Forall₂ (Safe src depth (bound + 1)) (all src checked) (Form.all src nested) :=
  .cons (dotted_safe hnested) <| .cons (indexed_safe hnested) <| .cons (comparison_safe hnested) <|
    .cons (joined_safe hnested) <| .cons (alone_safe field_safe) <| .cons (joined_safe hnested) <|
    .cons (negated_safe hnested) <| .cons (parenthesised_safe hnested) <| .cons (alone_safe mark_safe) <|
    .cons (alone_safe (listOf_safe hnested)) <| .cons (alone_safe (hashOf_safe hnested)) <|
    .cons (fun s hs hbound => (literal_safe s hs hbound).map _) <| .cons (alone_safe (call_safe hnested)) <|
    .cons (joined_safe hnested) <| .cons (fun s hs hbound => (rawString_safe s hs hbound).map _) <|
    .cons mark_safe .nil

end Safety

/-! ### Expressions -/

/-- A reading one level further in than what it stands in. -/
def inside (limit position : Nat) (x : Parser α) : Parser α := do
  let depth ← get
  let next ← sum src depth 1
  if limit < next then fail "expression" (.tooDeep limit) position
  else do
    set next
    let result ← attempt x
    let depth ← get
    let outer ← difference depth 1
    set outer
    match result with
    | .ok a => pure a
    | .error f => throw f

/-- An expression, read with as many levels left as the limit allows. -/
def rule (limit : Nat) : (levels : Nat) → Span → Parser Expr
  | 0, s => do
    let t ← bounded src "expression" s
    inside src limit t.start (liftM (Except.error Fault.depth : Except Fault Expr))
  | levels + 1, s => do
    let t ← bounded src "expression" s
    inside src limit t.start (firstOf src "expression" (all src (rule limit levels)) t)

section Levels

variable {src} {limit depth position : Nat} {x : Parser α} {r : Except Failure α}

theorem run_get (depth : Nat) : (get : Parser Nat) depth = .ok (.ok depth, depth) := rfl

theorem run_set (next depth : Nat) : (set next : Parser PUnit) depth = .ok (.ok ⟨⟩, next) := rfl

/-- A level below the limit is left as it was entered. -/
theorem inside_gives (hlimit : depth < limit) (hdepth : depth < src.size) (hx : Gives (depth + 1) x r) :
    Gives depth (inside src limit position x) r := by
  unfold Gives inside
  rw [run_ok (run_get depth), run_ok (Gives.lift (sum_ok (by omega))), if_neg (by omega), run_ok (run_set _ _),
    run_ok (attempt_gives hx), run_ok (run_get _), run_ok (Gives.lift (difference_ok (Nat.le_add_left _ _))),
    run_ok (run_set _ _)]
  cases r with
  | ok a => rfl
  | error f => rfl

/-- A level past the limit is not entered. -/
theorem inside_fails (hlimit : limit ≤ depth) (hdepth : depth < src.size) :
    Gives depth (inside src limit position x) (Rule.fail "expression" (.tooDeep limit) position) := by
  unfold Gives inside
  rw [run_ok (run_get depth), run_ok (Gives.lift (sum_ok (by omega))), if_pos (by omega)]
  rfl

/-- **An expression is read without a fault**, at a depth that leaves the text as many levels as the
range has characters. -/
theorem rule_safe : ∀ {levels depth : Nat}, depth + levels = limit →
    Safe src depth (src.size - depth) (rule src limit levels) (Expr.rule src limit levels)
  | 0, depth, hlimit => .bounded fun t hlt hstop hbound => inside_fails (by omega) (by omega)
  | levels + 1, depth, hlimit => by
    -- one level further in the ranges are shorter by one, which is what the forms ask of the rule inside them
    have hnested : Safe src (depth + 1) (src.size - (depth + 1)) (rule src limit levels) (Expr.rule src limit levels) :=
      rule_safe (by omega)
    refine .bounded fun t hlt hstop hbound => inside_gives (by omega) (by omega) ?_
    have ht : src.Holds t := ⟨Nat.le_of_lt hlt, hstop⟩
    exact firstOf_gives ht ((all_safe hnested).imp fun _ _ hform => hform t ht (by omega))

end Levels

/-! ### Whole texts -/

/-- What a rule makes of a text as a whole. -/
def whole (what text : String) (reading : Source → Span → Parser α) : Except Fault (Except Failure α) :=
  let src := Source.ofString text
  if src.size = 0 then pure (Rule.fail what (.emptyText what) 0) else Prod.fst <$> reading src src.whole 0

/-- The expression that a text is as a whole. -/
def parse (limits : Limits) (text : String) : Except Fault (Except Failure Expr) :=
  whole "expression" text fun src => rule src limits.maxDepth limits.maxDepth

/-- The name that a text is as a whole. -/
def parseIdentifier (text : String) : Except Fault (Except Failure String) := whole "identifier" text identifier

/-- A whole text is a range of itself. -/
theorem whole_ok {what text : String} {reading : Source → Span → Parser α} {plain : Source → Rule α}
    (h : ∀ src, Safe src 0 src.size (reading src) (plain src)) :
    whole what text reading = .ok (if (Source.ofString text).size = 0 then Rule.fail what (.emptyText what) 0
      else plain (.ofString text) (Source.ofString text).whole) := by
  have hread := (h (.ofString text)).range (Nat.zero_le _) (Nat.le_refl _) (Nat.le_add_left _ _)
  unfold Gives at hread
  unfold whole
  by_cases hempty : (Source.ofString text).size = 0
  · simp only [if_pos hempty]
    rfl
  · simp only [if_neg hempty, Source.whole]
    rw [hread]
    rfl

end Checked

/-- **No text stops the parser.** Whatever the text and the limit, each range that a rule is given is one of the
text, no number is taken from a smaller one, each sum is in reach, and each access is inside what it reads from; and
with the checks a text is read as it is without them. -/
theorem Expr.parse_checked (limits : Limits) (text : String) :
    Checked.parse limits text = .ok (Expr.parse limits text) ∧
      Checked.parseIdentifier text = .ok (Expr.parseIdentifier text) :=
  ⟨Checked.whole_ok fun _ => Checked.rule_safe (Nat.zero_add _), Checked.whole_ok fun _ => Checked.identifier_safe⟩

end PathQuery
