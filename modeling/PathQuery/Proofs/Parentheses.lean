/-
# Parentheses are transparent

Parentheses decide how a text is read, and the tree keeps them. Any of them can be left out of the
tree, wherever they stand and whatever they are around (`Expr.Unwraps`). The compiler does not see
the difference: it makes the same pipeline or finds the same error, takes the same variables and notes
the same scopes (`Expr.compile_unwraps`).

Key definitions: `Expr.Unwraps`.
Key theorems: `Selector.call_unwraps`, `Expr.operations_unwraps`, `Expr.compile_unwraps`.
-/
import PathQuery.Proofs.Supported

namespace PathQuery

mutual

/-- An expression, and the same with some of its parentheses left out. -/
inductive Expr.Unwraps : Expr → Expr → Prop
  /-- These parentheses are left out. -/
  | leave {e e' : Expr} : Expr.Unwraps e e' → Expr.Unwraps (.paren e) e'
  /-- These are kept. -/
  | paren {e e' : Expr} : Expr.Unwraps e e' → Expr.Unwraps (.paren e) (.paren e')
  | selector {s s' : Selector} : Selector.Unwraps s s' → Expr.Unwraps (.selector s) (.selector s')
  | dot {e e' : Expr} {s s' : Selector} : Expr.Unwraps e e' → Selector.Unwraps s s' →
    Expr.Unwraps (.dot e s) (.dot e' s')
  | index {b b' : Bracket} : Bracket.Unwraps b b' → Expr.Unwraps (.index b) (.index b')
  | indexOf {e e' : Expr} {b b' : Bracket} : Expr.Unwraps e e' → Bracket.Unwraps b b' →
    Expr.Unwraps (.indexOf e b) (.indexOf e' b')
  | binary {l l' r r' : Expr} (op : Operator) : Expr.Unwraps l l' → Expr.Unwraps r r' →
    Expr.Unwraps (.binary op l r) (.binary op l' r')
  | not {e e' : Expr} : Expr.Unwraps e e' → Expr.Unwraps (.not e) (.not e')
  | literal (v : Json) : Expr.Unwraps (.literal v) (.literal v)
  | raw (text : String) : Expr.Unwraps (.raw text) (.raw text)
  | current : Expr.Unwraps .current .current

/-- The same for a selector. -/
inductive Selector.Unwraps : Selector → Selector → Prop
  | identifier (name : String) : Selector.Unwraps (.identifier name) (.identifier name)
  | star : Selector.Unwraps .star .star
  | list {es es' : List Expr} : Expr.UnwrapsAll es es' → Selector.Unwraps (.list es) (.list es')
  | hash {es es' : List Entry} : Entry.UnwrapsAll es es' → Selector.Unwraps (.hash es) (.hash es')
  | call {as as' : List Argument} (name : String) : Argument.UnwrapsAll as as' →
    Selector.Unwraps (.call name as) (.call name as')

/-- The same for a bracket. -/
inductive Bracket.Unwraps : Bracket → Bracket → Prop
  | flatten : Bracket.Unwraps .flatten .flatten
  | number (n : Int64) : Bracket.Unwraps (.number n) (.number n)
  | star : Bracket.Unwraps .star .star
  | slice (s : Slice) : Bracket.Unwraps (.slice s) (.slice s)
  | filter {e e' : Expr} : Expr.Unwraps e e' → Bracket.Unwraps (.filter e) (.filter e')

/-- The same for expressions, place by place. -/
inductive Expr.UnwrapsAll : List Expr → List Expr → Prop
  | nil : Expr.UnwrapsAll [] []
  | cons {e e' : Expr} {es es' : List Expr} : Expr.Unwraps e e' → Expr.UnwrapsAll es es' →
    Expr.UnwrapsAll (e :: es) (e' :: es')

/-- The same for the entries of an object, place by place. -/
inductive Entry.UnwrapsAll : List Entry → List Entry → Prop
  | nil : Entry.UnwrapsAll [] []
  | cons {key : String} {e e' : Expr} {es es' : List Entry} : Expr.Unwraps e e' → Entry.UnwrapsAll es es' →
    Entry.UnwrapsAll (.mk key e :: es) (.mk key e' :: es')

/-- The same for arguments, place by place. -/
inductive Argument.UnwrapsAll : List Argument → List Argument → Prop
  | nil : Argument.UnwrapsAll [] []
  | value {e e' : Expr} {as as' : List Argument} : Expr.Unwraps e e' → Argument.UnwrapsAll as as' →
    Argument.UnwrapsAll (.value e :: as) (.value e' :: as')
  | reference {e e' : Expr} {as as' : List Argument} : Expr.Unwraps e e' → Argument.UnwrapsAll as as' →
    Argument.UnwrapsAll (.reference e :: as) (.reference e' :: as')

end

/-! ### Calls -/

/-- Arguments are values or references as they were. -/
theorem Argument.UnwrapsAll.isReference : ∀ {as as' : List Argument}, Argument.UnwrapsAll as as' →
    as.map Argument.isReference = as'.map Argument.isReference
  | _, _, .nil => rfl
  | _, _, .value _ h | _, _, .reference _ h => congrArg (List.cons _) h.isReference

/-- The fault of a call tells from its arguments only which are references. -/
theorem Site.callFault?_congr (name : String) {as as' : List Argument}
    (h : as.map Argument.isReference = as'.map Argument.isReference) :
    callFault? name as = callFault? name as' := by
  have hlength : as.length = as'.length := by
    rw [← List.length_map (f := Argument.isReference), h, List.length_map]
  have hfirst : as.findIdx? Argument.isReference = as'.findIdx? Argument.isReference := by
    have hmap : ∀ bs : List Argument, bs.findIdx? Argument.isReference = (bs.map Argument.isReference).findIdx? id :=
      fun bs => by rw [List.findIdx?_map]; rfl
    rw [hmap, h, ← hmap]
  rw [callFault?, callFault?, hlength, hfirst]

/-- A call comes to the same if it does so whenever it has no fault of its own. -/
theorem Selector.call_unwraps {s : Scope} {name : String} {as as' : List Argument}
    (has : Argument.UnwrapsAll as as') (h : Site.Supported (.selector (.call name as)) →
      (Selector.call name as).operations s = (Selector.call name as').operations s) :
    (Selector.call name as).operations s = (Selector.call name as').operations s := by
  cases hfault : Site.callFault? name as with
  | none => exact h (Site.supported_call.2 hfault)
  | some error =>
    have hfault' : Site.callFault? name as' = some error := Site.callFault?_congr name has.isReference ▸ hfault
    rw [Selector.operations_of_callFault hfault, Selector.operations_of_callFault hfault']

/-! ### The compiler -/

mutual

/-- **Parentheses make no difference to the operations of an expression**, whatever the scope. -/
theorem Expr.operations_unwraps : ∀ (e : Expr) {e' : Expr}, e.Unwraps e' → ∀ s, e.operations s = e'.operations s
  | .paren e, _, .leave h, s => by
    rw [Expr.operations]
    exact e.operations_unwraps h s
  | .paren e, _, .paren h, s => by
    rw [Expr.operations, Expr.operations]
    exact e.operations_unwraps h s
  | .selector sel, _, .selector h, s => by
    rw [Expr.operations, Expr.operations]
    exact sel.operations_unwraps h s
  | .dot left sel, _, .dot hleft hsel, s => by
    rw [Expr.operations, Expr.operations, left.operations_unwraps hleft s, sel.operations_unwraps hsel s]
  | .index b, _, .index h, s => by
    rw [Expr.operations, Expr.operations]
    exact b.operations_unwraps h s
  | .indexOf left b, _, .indexOf hleft hb, s => by
    rw [Expr.operations, Expr.operations, left.operations_unwraps hleft s, b.operations_unwraps hb s]
  | .binary (.compare _) left right, _, .binary _ hleft hright, s
  | .binary .or left right, _, .binary _ hleft hright, s
  | .binary .and left right, _, .binary _ hleft hright, s => by
    rw [Expr.operations, Expr.operations, left.operations_unwraps hleft s, right.operations_unwraps hright s]
  | .binary .pipe _ _, _, .binary _ _ _, _ => rfl
  | .not e, _, .not h, s => by
    rw [Expr.operations, Expr.operations, e.operations_unwraps h s]
  | .literal _, _, .literal _, _ | .raw _, _, .raw _, _ | .current, _, .current, _ => rfl

/-- The same for a selector. -/
theorem Selector.operations_unwraps : ∀ (sel : Selector) {sel' : Selector}, sel.Unwraps sel' →
    ∀ s, sel.operations s = sel'.operations s
  | .identifier _, _, .identifier _, _ | .star, _, .star, _ | .hash _, _, .hash _, _ => rfl
  | .list es, _, .list h, s => by
    rw [Selector.operations, Selector.operations, Expr.branches_unwraps es h s]
  | .call _ [.value e], _, .call _ has, s => Selector.call_unwraps has fun hsupported => by
    obtain ⟨rfl, -⟩ | ⟨-, _, _, h⟩ := hsupported
    · cases has with
      | value he hnil =>
        cases hnil
        rw [Selector.operations, Selector.operations, if_pos rfl, if_pos rfl, e.operations_unwraps he s]
    · cases h
  | .call _ [.value e, .value f], _, .call _ has, s => Selector.call_unwraps has fun hsupported => by
    obtain ⟨-, _, h⟩ | ⟨rfl, -⟩ := hsupported
    · cases h
    · cases has with
      | value he has =>
        cases has with
        | value hf hnil =>
          cases hnil
          rw [Selector.operations, Selector.operations, if_neg (by decide), if_pos rfl, if_neg (by decide), if_pos rfl,
            e.operations_unwraps he s, f.operations_unwraps hf s]
  | .call _ [], _, .call _ has, _ | .call _ (.reference _ :: _), _, .call _ has, _
  | .call _ (.value _ :: .reference _ :: _), _, .call _ has, _
  | .call _ (.value _ :: .value _ :: _ :: _), _, .call _ has, _ => Selector.call_unwraps has fun hsupported => by
    obtain ⟨-, _, h⟩ | ⟨-, _, _, h⟩ := hsupported <;> cases h

/-- The same for a bracket. -/
theorem Bracket.operations_unwraps : ∀ (b : Bracket) {b' : Bracket}, b.Unwraps b' →
    ∀ s, b.operations s = b'.operations s
  | .flatten, _, .flatten, _ | .number _, _, .number _, _ | .star, _, .star, _ | .slice _, _, .slice _, _ => rfl
  | .filter e, _, .filter h, s => by
    have hinside := e.operations_unwraps h
    simp only [Bracket.operations, hinside]

/-- The same for the branches of a list. -/
theorem Expr.branches_unwraps : ∀ (es : List Expr) {es' : List Expr}, Expr.UnwrapsAll es es' →
    ∀ s, Expr.branches s es = Expr.branches s es'
  | [], _, .nil, _ => rfl
  | e :: es, _, .cons he hes, s => by
    have hinside := e.operations_unwraps he
    simp only [Expr.branches, hinside, Expr.branches_unwraps es hes s]

end

/-- **Parentheses are transparent.** Whichever of them are left out of an expression, the outcome is the
same pipeline or the same error, and the naming goes on from the same number with the same notes. -/
theorem Expr.compile_unwraps {e e' : Expr} (h : e.Unwraps e') (subject : String) (n : Naming) :
    e.compile subject n = e'.compile subject n := by
  rw [Expr.compile, Expr.compile, e.operations_unwraps h]

/-- `!((a).[((b)), c[?(d || length((e)))]])` and `!(a.[(b), c[?d || length(e)]])`. -/
theorem Expr.compile_unwraps_nested :
    let name (x : String) : Expr := .selector (.identifier x)
    let e : Expr := .not (.paren (.dot (.paren (name "a")) (.list [.paren (.paren (name "b")), .indexOf (name "c")
      (.filter (.paren (.binary .or (name "d") (.selector (.call "length" [.value (.paren (name "e"))])))))])))
    let e' : Expr := .not (.paren (.dot (name "a") (.list [.paren (name "b"), .indexOf (name "c")
      (.filter (.binary .or (name "d") (.selector (.call "length" [.value (name "e")]))))])))
    e.Unwraps e' ∧ e.compile "input" (.start "x") = e'.compile "input" (.start "x") ∧
      ∃ p, (e.compile "input" (.start "x")).1 = .ok p := by
  intro name e e'
  have hname (x : String) : (name x).Unwraps (name x) := .selector (.identifier x)
  have hlength := Selector.Unwraps.call "length" (.value (.leave (hname "e")) .nil)
  have hfilter := Bracket.Unwraps.filter (.leave (.binary .or (hname "d") (.selector hlength)))
  have hitems := Expr.UnwrapsAll.cons (.leave (.paren (hname "b"))) (.cons (.indexOf (hname "c") hfilter) .nil)
  have h : e.Unwraps e' := .not (.paren (.dot (.leave (hname "a")) (.list hitems)))
  exact ⟨h, Expr.compile_unwraps h "input" (.start "x"), _, rfl⟩

end PathQuery
