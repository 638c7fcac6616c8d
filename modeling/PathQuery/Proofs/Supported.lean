/-
# What has a pipeline

An expression is built with operators, selectors and brackets, and the current value may stand in
it. These are its sites (`Expr.sites`), in the order in which they are gone through: the left side
before the right, entries and arguments from the left, and what holds expressions before these.
What stands after an expression, a selector behind a dot or a bracket, comes after its sites.

A site may have a fault of its own, whatever stands inside it (`Site.fault?`). An expression has a
pipeline if no site of it has a fault, and otherwise its error is the first one
(`Expr.compile_supported`).

Key definitions: `Site`, `Site.Supported`, `Site.fault?`, `Expr.sites`.
Key theorems: `Site.fault?_eq_none`, `Expr.operations_visits`, `Expr.compile_supported`.
-/
import PathQuery.Proofs.Stateful

namespace PathQuery

/-! ### Sites -/

/-- What an expression is built with. -/
inductive Site
  | operator (op : Operator)
  | current
  | selector (s : Selector)
  | bracket (b : Bracket)

/-- Whether an argument is an expression to apply. -/
def Argument.isReference : Argument → Bool
  | .value _ => false
  | .reference _ => true

namespace Site

/-- What has a pipeline if what is inside it has. -/
def Supported : Site → Prop
  | .operator op => op ≠ .pipe
  | .current => False
  | .selector (.hash _) => False
  | .selector (.call name arguments) =>
    (name = "length" ∧ ∃ e, arguments = [.value e]) ∨
      (name = "contains" ∧ ∃ e e', arguments = [.value e, .value e'])
  | .selector _ => True
  | .bracket (.slice _) => False
  | .bracket _ => True

/-- How many arguments a function takes. -/
def arity? (name : String) : Option Nat :=
  if name = "length" then some 1 else if name = "contains" then some 2 else none

/-- The fault of a call: of its name, else of the number of its arguments, else of the first
that is no value. -/
def callFault? (name : String) (arguments : List Argument) : Option CompileError :=
  match arity? name with
  | none => some (.unknownFunction name)
  | some arity =>
    if arguments.length ≠ arity then some (.invalidArguments name (.count arity arguments.length))
    else (arguments.findIdx? Argument.isReference).map fun i => .invalidArguments name (.reference (i + 1))

/-- The fault of a site by itself. -/
def fault? : Site → Option CompileError
  | .operator .pipe => some (.unsupported .pipe)
  | .operator _ => none
  | .current => some (.unsupported .currentNode)
  | .selector (.hash _) => some (.unsupported .hash)
  | .selector (.call name arguments) => callFault? name arguments
  | .selector _ => none
  | .bracket (.slice _) => some (.unsupported .slice)
  | .bracket _ => none

end Site

mutual

/-- The sites of an expression, in order. -/
def Expr.sites : Expr → List Site
  | .selector s => s.sites
  | .dot left s => left.sites ++ s.sites
  | .index b => b.sites
  | .indexOf left b => left.sites ++ b.sites
  | .binary op left right => .operator op :: (left.sites ++ right.sites)
  | .not e => e.sites
  | .paren e => e.sites
  | .literal _ => []
  | .raw _ => []
  | .current => [.current]

/-- The sites of a selector, itself first. -/
def Selector.sites : Selector → List Site
  | .identifier name => [.selector (.identifier name)]
  | .star => [.selector .star]
  | .list es => .selector (.list es) :: Expr.sitesAll es
  | .hash entries => .selector (.hash entries) :: Entry.sitesAll entries
  | .call name arguments => .selector (.call name arguments) :: Argument.sitesAll arguments

/-- The sites of a bracket, itself first. -/
def Bracket.sites : Bracket → List Site
  | .filter e => .bracket (.filter e) :: e.sites
  | .flatten => [.bracket .flatten]
  | .number n => [.bracket (.number n)]
  | .star => [.bracket .star]
  | .slice s => [.bracket (.slice s)]

/-- The sites of an entry. -/
def Entry.sites : Entry → List Site
  | .mk _ e => e.sites

/-- The sites of an argument. -/
def Argument.sites : Argument → List Site
  | .value e => e.sites
  | .reference e => e.sites

/-- The sites of expressions, from the left. -/
def Expr.sitesAll : List Expr → List Site
  | [] => []
  | e :: es => e.sites ++ Expr.sitesAll es

/-- The sites of entries, from the left. -/
def Entry.sitesAll : List Entry → List Site
  | [] => []
  | e :: es => e.sites ++ Entry.sitesAll es

/-- The sites of arguments, from the left. -/
def Argument.sitesAll : List Argument → List Site
  | [] => []
  | a :: as => a.sites ++ Argument.sitesAll as

end

/-! ### What is supported has no fault -/

namespace Site

/-- Arguments as many as are asked for of which none is to be applied. -/
theorem callFault?_eq_none {name : String} {arguments : List Argument} :
    callFault? name arguments = none ↔
      arity? name = some arguments.length ∧ ∀ a ∈ arguments, a.isReference = false := by
  rw [callFault?]
  cases arity? name with
  | none => exact ⟨nofun, fun h => nomatch h.1⟩
  | some arity =>
    dsimp only
    by_cases h : arguments.length = arity
    · subst h
      rw [if_neg (fun h => h rfl), Option.map_eq_none_iff, List.findIdx?_eq_none_iff]
      exact (and_iff_right rfl).symm
    · rw [if_pos h]
      exact ⟨nofun, fun h' => absurd (Option.some.inj h'.1).symm h⟩

theorem argumentFault_eq (expected : Nat) (arguments : List Argument) :
    argumentFault expected arguments =
      if arguments.length ≠ expected then .count expected arguments.length
      else .reference (1 + arguments.findIdx Argument.isReference) := by
  rw [argumentFault]
  congr 4
  funext a
  cases a <;> rfl

/-- The fault that the compiler finds in the arguments of a function it knows. -/
theorem callFault?_of_not {name : String} {arity : Nat} {arguments : List Argument}
    (hname : arity? name = some arity)
    (h : ¬ (arguments.length = arity ∧ ∀ a ∈ arguments, a.isReference = false)) :
    callFault? name arguments = some (.invalidArguments name (argumentFault arity arguments)) := by
  rw [callFault?, hname, argumentFault_eq]
  dsimp only
  by_cases hlength : arguments.length = arity
  · have hreference : ∃ a ∈ arguments, a.isReference = true := Classical.byContradiction fun hnone =>
      h ⟨hlength, fun a ha => Bool.eq_false_iff.2 fun htrue => hnone ⟨a, ha, htrue⟩⟩
    rw [if_neg (fun h => h hlength), if_neg (fun h => h hlength), List.findIdx?_eq_some_of_exists hreference,
      Nat.add_comm]
    rfl
  · rw [if_pos hlength, if_pos hlength]

/-- One value and no more. -/
theorem length_eq_one_values {arguments : List Argument} :
    (arguments.length = 1 ∧ ∀ a ∈ arguments, a.isReference = false) ↔ ∃ e, arguments = [.value e] := by
  match arguments with
  | [] | _ :: _ :: _ => simp
  | [.value e] | [.reference e] => simp [Argument.isReference]

/-- Two values and no more. -/
theorem length_eq_two_values {arguments : List Argument} :
    (arguments.length = 2 ∧ ∀ a ∈ arguments, a.isReference = false) ↔
      ∃ e e', arguments = [.value e, .value e'] := by
  match arguments with
  | [] | [_] | _ :: _ :: _ :: _ => simp
  | [.value e, .value e'] | [.value e, .reference e'] | [.reference e, _] => simp [Argument.isReference]

theorem supported_call {name : String} {arguments : List Argument} :
    Supported (.selector (.call name arguments)) ↔ callFault? name arguments = none := by
  rw [callFault?_eq_none, Supported, arity?, ← length_eq_one_values, ← length_eq_two_values]
  by_cases hlength : name = "length"
  · subst hlength
    simp [@eq_comm _ 1]
  · by_cases hcontains : name = "contains"
    · subst hcontains
      simp [@eq_comm _ 2]
    · simp [hlength, hcontains]

/-- **A site is supported if it has no fault.** -/
theorem fault?_eq_none : ∀ {s : Site}, s.fault? = none ↔ s.Supported
  | .operator op => by cases op <;> simp [fault?, Supported]
  | .selector (.call _ _) => supported_call.symm
  | .current | .selector (.hash _) | .bracket (.slice _) => ⟨nofun, False.elim⟩
  | .selector (.identifier _) | .selector .star | .selector (.list _)
  | .bracket .flatten | .bracket (.number _) | .bracket .star | .bracket (.filter _) =>
    ⟨fun _ => trivial, fun _ => rfl⟩

end Site

/-! ### The compiler goes through the sites -/

/-- Goes past a site, unless it has a fault. -/
def Site.check (s : Site) : Except CompileError Unit :=
  match s.fault? with
  | none => .ok ()
  | some error => .error error

theorem Site.forM_check (sites : List Site) : sites.forM Site.check =
    match sites.findSome? Site.fault? with
    | none => .ok ()
    | some error => .error error := by
  induction sites with
  | nil => rfl
  | cons s sites ih =>
    rw [List.findSome?_cons, List.forM, check]
    cases s.fault? with
    | none => exact ih
    | some error => rfl

/-- Whatever the naming, a compiler stops at the first of some sites that has a fault. -/
def Visits {α : Type} (x : Compiler α) (sites : List Site) : Prop :=
  Follows (fun _ _ => True) x (sites.forM Site.check)

namespace Visits

variable {α β : Type} {x : Compiler α} {f : α → Compiler β} {sites more : List Site}

theorem pure (a : α) : Visits (pure a) [] := Follows.pure trivial

theorem bind (hx : Visits x sites) (hf : ∀ a, Visits (f a) more) : Visits (x >>= f) (sites ++ more) := by
  rw [Visits, List.forM_eq_forM, List.forM_append]
  exact Follows.bind hx fun a _ _ => hf a

theorem map (hx : Visits x sites) (g : α → β) : Visits (do let a ← x; return g a) sites := by
  rw [← List.append_nil sites]
  exact hx.bind fun a => .pure (g a)

theorem throw {s : Site} {error : CompileError} (h : s.fault? = some error) :
    Visits (throw error : Compiler α) (s :: sites) := by
  rw [Visits, Site.forM_check, List.findSome?_cons, h]
  exact .throw error

theorem past {s : Site} (h : s.fault? = none) (hx : Visits x sites) : Visits x (s :: sites) := by
  rw [Visits, Site.forM_check] at hx ⊢
  rw [List.findSome?_cons, h]
  exact hx

theorem inScope {s : Scope} {body : Scope → Compiler α} (h : ∀ inner, Visits (body inner) sites) :
    Visits (inScope s body) sites := Follows.inScope h

end Visits

/-- A call with a fault of its own is refused before its arguments are gone through. -/
theorem Selector.operations_of_callFault {s : Scope} {name : String} {arguments : List Argument} {error : CompileError}
    (h : Site.callFault? name arguments = some error) : (Selector.call name arguments).operations s = throw error := by
  have hsupported : ¬ Site.Supported (.selector (.call name arguments)) := by
    rw [Site.supported_call, h]
    nofun
  unfold Selector.operations
  split
  case isTrue hlength =>
    split
    case h_1 e => exact absurd (.inl ⟨hlength, e, rfl⟩) hsupported
    case h_2 hne =>
      have harity : Site.arity? name = some 1 := if_pos hlength
      have hfault := Site.callFault?_of_not harity fun hvalues => (Site.length_eq_one_values.1 hvalues).elim hne
      rw [Option.some.inj (h.symm.trans hfault)]
  case isFalse hlength =>
    split
    case isTrue hcontains =>
      split
      case h_1 e e' => exact absurd (.inr ⟨hcontains, e, e', rfl⟩) hsupported
      case h_2 hne =>
        have harity : Site.arity? name = some 2 := by rw [Site.arity?, if_neg hlength, if_pos hcontains]
        have hfault := Site.callFault?_of_not harity fun hvalues =>
          (Site.length_eq_two_values.1 hvalues).elim fun e he => he.elim (hne e)
        rw [Option.some.inj (h.symm.trans hfault)]
    case isFalse hcontains =>
      have harity : Site.arity? name = none := by rw [Site.arity?, if_neg hlength, if_neg hcontains]
      rw [Site.callFault?, harity] at h
      rw [Option.some.inj h]

/-- A call is visited if its arguments are whenever it has no fault of its own. -/
theorem Selector.call_visits {s : Scope} {name : String} {arguments : List Argument}
    (h : Site.Supported (.selector (.call name arguments)) →
      Visits ((Selector.call name arguments).operations s) (Argument.sitesAll arguments)) :
    Visits ((Selector.call name arguments).operations s) (Selector.call name arguments).sites := by
  rw [Selector.sites]
  cases hfault : Site.callFault? name arguments with
  | none => exact .past hfault (h (Site.supported_call.2 hfault))
  | some error =>
    rw [Selector.operations_of_callFault hfault]
    exact .throw hfault

mutual

/-- **The compiler goes through the sites of an expression**, up to the first that has a fault. -/
theorem Expr.operations_visits (s : Scope) : ∀ e : Expr, Visits (e.operations s) e.sites
  | .selector sel => by
    rw [Expr.operations, Expr.sites]
    exact sel.operations_visits s
  | .dot left sel => by
    rw [Expr.operations, Expr.sites]
    exact (left.operations_visits s).bind fun _ => (sel.operations_visits s).map _
  | .index b => by
    rw [Expr.operations, Expr.sites]
    exact b.operations_visits s
  | .indexOf left b => by
    rw [Expr.operations, Expr.sites]
    exact (left.operations_visits s).bind fun _ => (b.operations_visits s).map _
  | .binary (.compare _) left right | .binary .or left right | .binary .and left right => by
    rw [Expr.operations, Expr.sites]
    exact .past rfl ((left.operations_visits s).bind fun _ => (right.operations_visits s).map _)
  | .binary .pipe _ _ => .throw rfl
  | .not e => by
    rw [Expr.operations, Expr.sites]
    exact (e.operations_visits s).map _
  | .paren e => by
    rw [Expr.operations, Expr.sites]
    exact e.operations_visits s
  | .literal _ | .raw _ => .pure _
  | .current => .throw rfl

/-- The same for a selector. -/
theorem Selector.operations_visits (s : Scope) : ∀ sel : Selector, Visits (sel.operations s) sel.sites
  | .identifier _ | .star => .past rfl (.pure _)
  | .list es => by
    rw [Selector.operations, Selector.sites]
    exact .past rfl ((Expr.branches_visits s es).map _)
  | .hash _ => .throw rfl
  | .call name [.value e] => Selector.call_visits fun hsupported => by
    obtain ⟨rfl, -⟩ | ⟨-, _, _, h⟩ := hsupported
    · rw [Selector.operations, if_pos rfl, Argument.sitesAll, Argument.sites, Argument.sitesAll, List.append_nil]
      exact (e.operations_visits s).map _
    · cases h
  | .call name [.value e, .value e'] => Selector.call_visits fun hsupported => by
    obtain ⟨-, _, h⟩ | ⟨rfl, -⟩ := hsupported
    · cases h
    · rw [Selector.operations, if_neg (by decide), if_pos rfl, Argument.sitesAll, Argument.sites,
        Argument.sitesAll, Argument.sites, Argument.sitesAll, List.append_nil]
      exact (e.operations_visits s).bind fun _ => (e'.operations_visits s).map _
  | .call name [] | .call name (.reference _ :: _) | .call name (.value _ :: .reference _ :: _)
  | .call name (.value _ :: .value _ :: _ :: _) => Selector.call_visits fun hsupported => by
    obtain ⟨-, _, h⟩ | ⟨-, _, _, h⟩ := hsupported <;> cases h

/-- The same for a bracket. -/
theorem Bracket.operations_visits (s : Scope) : ∀ b : Bracket, Visits (b.operations s) b.sites
  | .flatten | .number _ | .star => .past rfl (.pure _)
  | .slice _ => .throw rfl
  | .filter e => by
    rw [Bracket.operations, Bracket.sites]
    exact .past rfl ((Visits.inScope fun inner => (e.operations_visits inner).map _).map _)

/-- The same for the branches of a list. -/
theorem Expr.branches_visits (s : Scope) : ∀ es : List Expr, Visits (Expr.branches s es) (Expr.sitesAll es)
  | [] => .pure _
  | e :: es => by
    rw [Expr.branches, Expr.sitesAll]
    refine (Visits.inScope fun inner => (e.operations_visits inner).map _).bind fun _ => ?_
    exact (Expr.branches_visits s es).map _

end

/-- **What has a pipeline.** Whatever the names, an expression has one if all its sites are
supported, and otherwise its error is the fault of the first that is not. -/
theorem Expr.compile_supported (e : Expr) (subject : String) (n : Naming) :
    ((∃ p, (e.compile subject n).1 = .ok p) ↔ ∀ s ∈ e.sites, s.Supported) ∧
    ∀ error, (e.compile subject n).1 = .error error ↔ ∃ before s after, e.sites = before ++ s :: after ∧
      s.fault? = some error ∧ ∀ t ∈ before, t.Supported := by
  have hvisits : Visits (e.compile subject) e.sites := by
    rw [Expr.compile]
    exact (e.operations_visits (.root subject)).map _
  have h := hvisits n
  rw [Site.forM_check] at h
  simp only [← Site.fault?_eq_none]
  simp only [← List.findSome?_eq_some_iff]
  rw [← List.findSome?_eq_none_iff]
  generalize (e.compile subject n).1 = r at h ⊢
  generalize e.sites.findSome? Site.fault? = first at h ⊢
  cases first with
  | none =>
    obtain ⟨p, rfl, -⟩ := h.ok_right
    exact ⟨⟨fun _ => rfl, fun _ => ⟨p, rfl⟩⟩, fun _ => ⟨nofun, nofun⟩⟩
  | some fault =>
    cases h
    refine ⟨⟨nofun, nofun⟩, fun _ => ⟨fun h => ?_, fun h => ?_⟩⟩
    · exact congrArg some (Except.error.inj h)
    · exact congrArg _ (Option.some.inj h)

end PathQuery
