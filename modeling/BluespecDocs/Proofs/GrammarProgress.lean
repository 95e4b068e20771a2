import BluespecDocs.Proofs.LeftmostSearch
import BluespecDocs.Proofs.FunctionPlaces

/-!
Progress of the grammar. A rule that applies has read tokens from the front, at least one unless it is the rule for
provisos, and its span is theirs. So the loops of the grammar come to an end on every token list, whatever stands in
it: a repetition without a bound goes through at most one round per token, and a rule that uses itself does so only
where fewer tokens are to go.
-/

namespace BluespecDocs

open Rule

namespace Rule

variable {α : Type}

/-- The span from the first to the last of some tokens. -/
def spanOf (front : List Token) (h : front ≠ []) : Span := ⟨(front.head h).span.start, (front.getLast h).span.stop⟩

/-- A rule that keeps its place reads tokens from the front and tells the span of them. -/
theorem Keeps.exists_front {r : Rule α} (h : Keeps r) {ts us : List Token} {a : α} (hr : r ts = some (a, us)) :
    ∃ front, ts = front ++ us ∧ ∀ hne : front ≠ [], spanned r ts = some ((a, spanOf front hne), us) := by
  obtain ⟨front, rfl⟩ := h ts a us hr
  refine ⟨front, rfl, fun hne => spanned_eq_some.mpr ⟨hr, ?_⟩⟩
  rw [spanRead_append hne, spanOf]

theorem Shrinks.ne_some_self {r : Rule α} (h : Shrinks r) (ts : List Token) (a : α) : r ts ≠ some (a, ts) :=
  fun hr => Nat.lt_irrefl _ (h ts a ts hr).2

/-- A repetition as a loop without a bound: rounds that read an item each, up to a place where no item can be read. -/
inductive Repeats (item : Rule α) : List Token → List α → List Token → Prop
  | done {ts : List Token} (h : item ts = none) : Repeats item ts [] ts
  | round {ts us vs : List Token} {a : α} {as : List α} (h : item ts = some (a, us)) (others : Repeats item us as vs) :
      Repeats item ts (a :: as) vs

theorem Repeats.length_le {item : Rule α} (h : Shrinks item) {ts vs : List Token} {as : List α}
    (hrun : Repeats item ts as vs) : as.length + vs.length ≤ ts.length := by
  induction hrun with
  | done => simp
  | round hitem _ ih =>
      have hlength := (h _ _ _ hitem).2
      rw [List.length_cons]
      omega

/-- The bounded repetition is the loop without a bound, which ends everywhere. -/
theorem Shrinks.repeats_many {item : Rule α} (h : Shrinks item) (ts : List Token) :
    ∃ as vs, many item ts = some (as, vs) ∧ Repeats item ts as vs := by
  cases hitem : item ts with
  | none => exact ⟨[], ts, many_of_none hitem, .done hitem⟩
  | some found =>
      obtain ⟨a, us⟩ := found
      have hlength := (h ts a us hitem).2
      obtain ⟨as, vs, hmany, hrun⟩ := h.repeats_many us
      exact ⟨a :: as, vs, by rw [many_of_some h hitem, hmany]; rfl, .round hitem hrun⟩
termination_by ts.length
decreasing_by exact hlength

/-- What a rule does where fewer than `n` tokens are to go; elsewhere it does not apply. -/
def below (n : Nat) (r : Rule α) : Rule α := fun ts => if ts.length < n then r ts else none

theorem Shrinks.below {r : Rule α} (h : Shrinks r) (n : Nat) : Shrinks (below n r) := by
  intro ts a us hr
  rw [Rule.below] at hr
  split at hr
  · exact h ts a us hr
  · cases hr

/-- A rule that descends uses itself only where fewer tokens are to go. -/
theorem Descends.recursive_eq_below {step : Rule α → Rule α} (h : Descends step) (ts : List Token) :
    recursive step ts = step (below ts.length (recursive step)) ts := by
  have hs := h.recursive_shrinks
  have hbelow : Parallel (Below ts.length) (Below ts.length) Eq (recursive step)
      (below ts.length (recursive step)) := by
    rintro us _ ⟨rfl, hlength⟩
    rw [below, if_pos hlength]
    cases hus : recursive step us with
    | none => exact .none
    | some found =>
        have hrest := (hs us found.1 found.2 hus).2
        exact .some ⟨rfl, rfl, Nat.lt_trans hrest hlength⟩
  have hstep := h.parallel ts.length _ _ hs (hs.below _) hbelow
  rw [h.recursive_eq]
  exact Below.eq_of_parallel hstep (fun _ _ hus => hus.1) (Nat.lt_succ_self _)

end Rule

/-- The rules of the grammar for more than single tokens. -/
inductive GrammarRule where
  | typeExpr | typeFormal | typeFormals | provisos | dependencies
  | package | importStatement | exportStatement | typedef | interface | typeclass | instanceOf | moduleOf | function
  | declaration | statement
deriving DecidableEq, Repr

namespace GrammarRule

/-- What a rule gives. -/
def Value : GrammarRule → Type
  | typeExpr => TypeExpr
  | typeFormal => TypeFormal
  | typeFormals => List TypeFormal
  | provisos => List TypeExpr
  | dependencies => List TypeDependency
  | package => Package
  | importStatement => Import
  | exportStatement => Export
  | typedef => Typedef
  | interface => Interface
  | typeclass => Typeclass
  | instanceOf => Instance
  | moduleOf => Module
  | function => Function
  | declaration => Construct
  | statement => Statement

/-- The rule itself. -/
def rule : (g : GrammarRule) → Rule g.Value
  | typeExpr => TypeExpr.rule
  | typeFormal => TypeFormal.rule
  | typeFormals => TypeFormal.listRule
  | provisos => TypeExpr.provisosRule
  | dependencies => TypeDependency.listRule
  | package => Package.rule
  | importStatement => Import.rule
  | exportStatement => Export.rule
  | typedef => Typedef.rule
  | interface => Interface.rule
  | typeclass => Typeclass.rule
  | instanceOf => Instance.rule
  | moduleOf => Module.rule
  | function => Function.rule
  | declaration => Construct.rule
  | statement => Statement.rule

/-- The place that a value tells of itself. -/
def place? : (g : GrammarRule) → g.Value → Option Span
  | importStatement, found => some (Import.span found)
  | exportStatement, found => some (Export.span found)
  | statement, found => some (Statement.span found)
  | function, found => some (Function.span found)
  | declaration, .ofFunction found => some found.span
  | _, _ => none

theorem rule_shrinks : (g : GrammarRule) → g ≠ provisos → Shrinks g.rule
  | typeExpr, _ => TypeExpr.rule_shrinks
  | typeFormal, _ => TypeFormal.rule_shrinks
  | typeFormals, _ => TypeFormal.listRule_shrinks
  | provisos, h => absurd rfl h
  | dependencies, _ => TypeDependency.listRule_shrinks
  | package, _ => Package.rule_shrinks
  | importStatement, _ => Import.rule_shrinks
  | exportStatement, _ => Export.rule_shrinks
  | typedef, _ => Typedef.rule_shrinks
  | interface, _ => Interface.rule_shrinks
  | typeclass, _ => Typeclass.rule_shrinks
  | instanceOf, _ => Instance.rule_shrinks
  | moduleOf, _ => Module.rule_shrinks
  | function, _ => Function.rule_shrinks
  | declaration, _ => Construct.rule_shrinks
  | statement, _ => Statement.rule_shrinks

theorem rule_keeps (g : GrammarRule) : Keeps g.rule := by
  by_cases h : g = provisos
  · subst h
    exact TypeExpr.provisosRule_keeps
  · exact (g.rule_shrinks h).keeps

theorem place_eq_spanRead (g : GrammarRule) {ts us : List Token} {a : g.Value} (h : g.rule ts = some (a, us))
    {place : Span} (hplace : place ∈ g.place? a) : place = spanRead ts us := by
  cases g with
  | importStatement =>
      cases hplace
      exact Import.span_of_rule h
  | exportStatement =>
      cases hplace
      exact Export.span_of_rule h
  | statement =>
      cases hplace
      exact Statement.span_of_rule h
  | function =>
      cases hplace
      obtain ⟨header, vs, inner, -, -, rfl⟩ := Function.rule_eq_some.mp h
      rfl
  | declaration =>
      cases a with
      | ofFunction f =>
          cases hplace
          obtain ⟨header, vs, inner, -, -, rfl⟩ := Function.rule_eq_some.mp (Construct.rule_eq_some.mp h)
          rfl
      | _ => cases hplace
  | _ => cases hplace

end GrammarRule

/-- The repetitions of the grammar, by what is repeated. -/
inductive Repetition where
  | typeArg | typeParam | formal | dependency | dependencyName | derivedClass | enumElement | functionParam
  | structMember | unionMember | bodyItem
deriving DecidableEq, Repr

namespace Repetition

/-- What one round gives. -/
def Value : Repetition → Type
  | typeArg | typeParam => TypeExpr
  | formal => TypeFormal
  | dependency => TypeDependency
  | dependencyName | derivedClass => Identifier
  | enumElement => EnumElement
  | functionParam => TypeExpr × Option Identifier
  | structMember | unionMember => Member
  | bodyItem => Option Function

/-- A further item of a list, with the comma in front of it, as `commaSeparated` repeats it. -/
def afterComma {α : Type} (item : Rule α) : Rule α := do
  mark .comma
  item

/-- What one round reads: the items of lists but the first, the members in braces, and the items of function bodies. -/
def item : (r : Repetition) → Rule r.Value
  | typeArg => afterComma TypeExpr.rule
  | typeParam => afterComma do
      let param ← TypeExpr.rule
      let _ ← Identifier.lowercase
      return param
  | formal => afterComma TypeFormal.rule
  | dependency => afterComma TypeDependency.rule
  | dependencyName => afterComma Identifier.lowercase
  | derivedClass => afterComma Identifier.capitalized
  | enumElement => afterComma EnumElement.rule
  | functionParam => afterComma FunctionHeader.paramRule
  | structMember => Member.fieldRule Identifier.lowercase <|> Member.nestedRule
  | unionMember => Member.fieldRule Identifier.capitalized <|> Member.nestedRule
  | bodyItem => Function.item Function.rule

theorem afterComma_shrinks {α : Type} {item : Rule α} (h : Shrinks item) : Shrinks (afterComma item) :=
  (shrinks_mark _).bind fun _ => h.keeps

theorem item_shrinks : (r : Repetition) → Shrinks r.item
  | typeArg => afterComma_shrinks TypeExpr.rule_shrinks
  | typeParam => afterComma_shrinks (TypeExpr.rule_shrinks.bind fun _ =>
      Identifier.lowercase_shrinks.keeps.bind fun _ => keeps_pure _)
  | formal => afterComma_shrinks TypeFormal.rule_shrinks
  | dependency => afterComma_shrinks TypeDependency.rule_shrinks
  | dependencyName => afterComma_shrinks Identifier.lowercase_shrinks
  | derivedClass => afterComma_shrinks Identifier.capitalized_shrinks
  | enumElement => afterComma_shrinks EnumElement.rule_shrinks
  | functionParam => afterComma_shrinks FunctionHeader.paramRule_shrinks
  | structMember => Member.item_shrinks Identifier.lowercase_shrinks.keeps Member.nestedRule_shrinks
  | unionMember => Member.item_shrinks Identifier.capitalized_shrinks.keeps Member.nestedRule_shrinks
  | bodyItem => Function.item_shrinks Function.rule_shrinks

end Repetition

/-- How the grammar goes through its tokens. A rule reads from the front, leaves the rest as it is, and its span is that
of what it read. Only the rule for provisos applies without reading, and then there are none. A repetition is a loop
without a bound that ends everywhere, after at most one round for each token read. -/
structure GrammarProgress : Prop where
  reads_front : ∀ (g : GrammarRule) (ts : List Token) (a : g.Value) (us : List Token), g.rule ts = some (a, us) →
    ∃ front, ts = front ++ us ∧ (g ≠ .provisos → front ≠ []) ∧ ∀ h : front ≠ [],
      spanned g.rule ts = some ((a, spanOf front h), us) ∧ ∀ place ∈ g.place? a, place = spanOf front h
  reads_nothing_iff : ∀ g : GrammarRule, (∃ ts a, g.rule ts = some (a, ts)) ↔ g = .provisos
  no_provisos : ∀ ts types, TypeExpr.provisosRule ts = some (types, ts) → types = []
  repeats : ∀ (r : Repetition) (ts : List Token), ∃ items us, many r.item ts = some (items, us) ∧
    Repeats r.item ts items us ∧ items.length + us.length ≤ ts.length
  -- The three rules that use themselves do so only where fewer tokens are to go.
  types_descend : ∀ ts, TypeExpr.rule ts =
    (TypeExpr.functionType (below ts.length TypeExpr.rule) <|> TypeExpr.namedType (below ts.length TypeExpr.rule) <|>
      TypeExpr.numericType) ts
  members_descend : ∀ ts, Member.nestedRule ts =
    (Member.taggedUnion (below ts.length Member.nestedRule) <|>
      Member.taggedStruct (below ts.length Member.nestedRule)) ts
  functions_descend : ∀ ts, Function.rule ts = Function.level (below ts.length Function.rule) ts

/-- Every rule reads a front part of its tokens, not an empty one but for missing provisos, tells the span of it, and no
loop of the grammar goes on without reading. -/
theorem grammar_progress : GrammarProgress where
  reads_front g ts a us h := by
    obtain ⟨front, rfl, hspan⟩ := g.rule_keeps.exists_front h
    refine ⟨front, rfl, fun hg => (g.rule_shrinks hg).ne_nil h, fun hne => ⟨hspan hne, fun place hplace => ?_⟩⟩
    rw [g.place_eq_spanRead h hplace, spanRead_append hne, spanOf]
  reads_nothing_iff g := by
    constructor
    · rintro ⟨ts, a, h⟩
      by_contra hg
      exact (g.rule_shrinks hg).ne_some_self ts a h
    · rintro rfl
      exact ⟨[], [], rfl⟩
  no_provisos ts types h := by
    rcases orElse_eq_some.mp h with h | ⟨-, h⟩
    · exact absurd h (Shrinks.ne_some_self ((shrinks_keyword _).bind fun _ =>
        TypeExpr.rule_shrinks.parenthesized.keeps) ts types)
    · cases h
      rfl
  repeats r ts := by
    obtain ⟨items, us, hmany, hrun⟩ := r.item_shrinks.repeats_many ts
    exact ⟨items, us, hmany, hrun, hrun.length_le r.item_shrinks⟩
  types_descend := TypeExpr.descends.recursive_eq_below
  members_descend := Member.descends.recursive_eq_below
  functions_descend := Function.descends.recursive_eq_below

end BluespecDocs
