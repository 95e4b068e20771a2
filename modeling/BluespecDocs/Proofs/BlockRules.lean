import BluespecDocs.Proofs.ConstructRules

/-!
The rules for what runs to a closing word: interfaces, type classes, instances, modules and functions, and
the choice among all constructs. A function is what its definition makes of itself, and its body unfolds
item by item: a definition where one is complete, and else one token that does not close the body.
-/

namespace BluespecDocs

open Rule

variable {α : Type} {R R₀ S : List Token → List Token → Prop}

namespace Rule

theorem skipTo_keeps (closing : String) : Keeps (skipTo closing) := by
  intro ts a us h
  cases h
  exact List.dropWhile_suffix _

theorem closed_shrinks (closing : String) {label : Rule Identifier} (hlabel : Keeps label) :
    Shrinks (closed closing label) := by
  have hmarked : Shrinks (do mark .colon; label) := (shrinks_mark .colon).bind fun _ => hlabel
  refine (shrinks_keyword closing).bind fun _ => ?_
  refine hmarked.keeps.optional.bind fun found => ?_
  exact keeps_pure _

theorem Shrinks.block {header : Rule α} (h : Shrinks header) (closing : String) {label : Rule Identifier}
    (hlabel : Keeps label) : Shrinks (block header closing label) := by
  refine h.bind fun value => ?_
  refine (skipTo_keeps closing).bind fun _ => ?_
  refine (closed_shrinks closing hlabel).keeps.bind fun _ => ?_
  exact keeps_pure value

theorem skipTo_parallel (h : Lockstep (fun _ => true) R R) (closing : String) :
    Parallel R R Eq (skipTo closing) (skipTo closing) := by
  intro ts
  induction ts with
  | nil =>
      intro ts' hR
      rcases h [] ts' hR with ⟨-, rfl⟩ | ⟨t, us, t', us', hts, -⟩
      · exact .some ⟨rfl, hR⟩
      · cases hts
  | cons t us ih =>
      intro ts' hR
      rcases h (t :: us) ts' hR with ⟨hts, -⟩ | ⟨_, _, t', us', hts, rfl, halike, hus⟩
      · cases hts
      · cases hts
        by_cases hword : t.isWord closing = true
        · rw [skipTo, skipTo, List.dropWhile_cons_of_neg (by simpa using hword),
            List.dropWhile_cons_of_neg (by simpa [← halike.isWord_eq] using hword)]
          exact .some ⟨rfl, hR⟩
        · have hskip := ih us' (hus rfl)
          rw [skipTo, skipTo] at hskip ⊢
          rwa [List.dropWhile_cons_of_pos (by simpa using hword),
            List.dropWhile_cons_of_pos (by simpa [← halike.isWord_eq] using hword)]

theorem closed_parallel (h : Lockstep (fun _ => true) R R) (closing : String) {label : Rule Identifier}
    (hlabel : Parallel R R Eq label label) : Parallel R R Eq (closed closing label) (closed closing label) := by
  have hmarked := (parallel_mark h .colon fun _ _ => rfl).bind_eq fun _ => hlabel
  refine (parallel_keyword h closing fun _ _ => rfl).bind_eq fun _ => ?_
  refine hmarked.optional.bind_eq fun found => ?_
  exact parallel_pure rfl

theorem Parallel.block (h : Lockstep (fun _ => true) R R) {header : Rule α}
    (hheader : Parallel R R Eq header header) (closing : String) {label : Rule Identifier}
    (hlabel : Parallel R R Eq label label) :
    Parallel R R Eq (block header closing label) (block header closing label) := by
  refine hheader.bind_eq fun value => ?_
  refine (skipTo_parallel h closing).bind_eq fun _ => ?_
  refine (closed_parallel h closing hlabel).bind_eq fun _ => ?_
  exact parallel_pure rfl

end Rule

namespace Interface

theorem header_shrinks : Shrinks header := by
  refine (shrinks_keyword "interface").bind fun _ => ?_
  refine Identifier.capitalized_shrinks.keeps.bind fun name => ?_
  refine TypeFormal.listRule_shrinks.keeps.optional.bind fun formals => ?_
  refine (shrinks_mark .semicolon).keeps.bind fun _ => ?_
  exact keeps_pure _

theorem rule_shrinks : Shrinks rule := header_shrinks.block _ Identifier.capitalized_shrinks.keeps

theorem rule_startsWith : StartsWith ["interface"] rule := ((startsWith_keyword _).bind _).bind _

theorem header_parallel (h : Lockstep Token.isTypePart R R) (hend : Lockstep (Token.isMark .semicolon) R S) :
    Parallel R S Eq header header := by
  refine (typePart_keyword_parallel h "interface").bind_eq fun _ => ?_
  refine (Identifier.capitalized_parallel h).bind_eq fun name => ?_
  refine (TypeFormal.listRule_parallel h).optional.bind_eq fun formals => ?_
  refine (semicolon_parallel hend).bind_eq fun _ => ?_
  exact parallel_pure rfl

end Interface

namespace Typeclass

theorem header_shrinks : Shrinks header := by
  refine (shrinks_keyword "typeclass").bind fun _ => ?_
  refine Identifier.capitalized_shrinks.keeps.bind fun name => ?_
  refine TypeFormal.listRule_shrinks.keeps.bind fun formals => ?_
  refine TypeExpr.provisosRule_keeps.bind fun provisos => ?_
  refine TypeDependency.listRule_shrinks.keeps.orEmpty.bind fun dependencies => ?_
  refine (shrinks_mark .semicolon).keeps.bind fun _ => ?_
  exact keeps_pure _

theorem rule_shrinks : Shrinks rule := header_shrinks.block _ Identifier.capitalized_shrinks.keeps

theorem rule_startsWith : StartsWith ["typeclass"] rule := ((startsWith_keyword _).bind _).bind _

theorem header_parallel (h : Lockstep Token.isTypePart R R) (hend : Lockstep (Token.isMark .semicolon) R S) :
    Parallel R S Eq header header := by
  refine (typePart_keyword_parallel h "typeclass").bind_eq fun _ => ?_
  refine (Identifier.capitalized_parallel h).bind_eq fun name => ?_
  refine (TypeFormal.listRule_parallel h).bind_eq fun formals => ?_
  refine (TypeExpr.provisosRule_parallel h).bind_eq fun provisos => ?_
  refine (TypeDependency.listRule_parallel h).orEmpty.bind_eq fun dependencies => ?_
  refine (semicolon_parallel hend).bind_eq fun _ => ?_
  exact parallel_pure rfl

end Typeclass

namespace Instance

theorem header_shrinks : Shrinks header := by
  refine (shrinks_keyword "instance").bind fun _ => ?_
  refine Identifier.capitalized_shrinks.keeps.bind fun name => ?_
  refine (TypeExpr.typeArgs_shrinks TypeExpr.rule_shrinks).keeps.bind fun args => ?_
  refine TypeExpr.provisosRule_keeps.bind fun provisos => ?_
  refine (shrinks_mark .semicolon).keeps.bind fun _ => ?_
  exact keeps_pure _

theorem rule_shrinks : Shrinks rule := header_shrinks.block _ Identifier.capitalized_shrinks.keeps

theorem rule_startsWith : StartsWith ["instance"] rule := ((startsWith_keyword _).bind _).bind _

theorem header_parallel (h : Lockstep Token.isTypePart R R) (hend : Lockstep (Token.isMark .semicolon) R S) :
    Parallel R S Eq header header := by
  have hargs := TypeExpr.typeArgs_parallel h TypeExpr.rule_shrinks TypeExpr.rule_shrinks (TypeExpr.rule_parallel h)
  refine (typePart_keyword_parallel h "instance").bind_eq fun _ => ?_
  refine (Identifier.capitalized_parallel h).bind_eq fun name => ?_
  refine hargs.bind_eq fun args => ?_
  refine (TypeExpr.provisosRule_parallel h).bind_eq fun provisos => ?_
  refine (semicolon_parallel hend).bind_eq fun _ => ?_
  exact parallel_pure rfl

end Instance

namespace Module

theorem header_shrinks : Shrinks header := by
  have hcontext := shrinks_between .leftBracket .rightBracket TypeExpr.rule_shrinks.keeps
  refine (shrinks_keyword "module").bind fun _ => ?_
  refine hcontext.keeps.optional.bind fun context => ?_
  refine Identifier.lowercase_shrinks.keeps.bind fun name => ?_
  exact keeps_pure _

theorem rule_shrinks : Shrinks rule := header_shrinks.block _ Identifier.lowercase_shrinks.keeps

theorem rule_startsWith : StartsWith ["module"] rule := ((startsWith_keyword _).bind _).bind _

theorem header_parallel (h : Lockstep (fun _ => true) R R) : Parallel R R Eq header header := by
  have htype : Lockstep Token.isTypePart R R := h.mono fun _ _ => rfl
  have hmark (m : Mark) : Parallel R R Eq (mark m) (mark m) := parallel_mark h m fun _ _ => rfl
  have hcontext := (hmark .leftBracket).between (TypeExpr.rule_parallel htype) (hmark .rightBracket)
  refine (typePart_keyword_parallel htype "module").bind_eq fun _ => ?_
  refine hcontext.optional.bind_eq fun context => ?_
  refine (Identifier.lowercase_parallel htype).bind_eq fun name => ?_
  exact parallel_pure rfl

end Module

namespace FunctionHeader

theorem resultAndName_shrinks : Shrinks resultAndName := by
  have hresult : Shrinks (do
      let result ← TypeExpr.rule
      return (some result, ← Identifier.lowercase)) := by
    refine TypeExpr.rule_shrinks.bind fun result => ?_
    refine Identifier.lowercase_shrinks.keeps.bind fun name => ?_
    exact keeps_pure _
  have hname : Shrinks (do return ((none : Option TypeExpr), ← Identifier.lowercase)) :=
    Identifier.lowercase_shrinks.bind fun name => keeps_pure _
  exact hresult.orElse hname

theorem paramRule_shrinks : Shrinks paramRule := by
  refine TypeExpr.rule_shrinks.bind fun type => ?_
  refine Identifier.lowercase_shrinks.keeps.optional.bind fun name => ?_
  exact keeps_pure _

theorem paramsRule_keeps : Keeps paramsRule := by
  have hparams := paramRule_shrinks.commaSeparated.keeps.orEmpty
  have hparens := shrinks_between .leftParen .rightParen hparams
  exact hparens.keeps.orEmpty

theorem rule_shrinks : Shrinks rule := by
  refine (shrinks_keyword "function").bind fun _ => ?_
  refine resultAndName_shrinks.keeps.bind fun resultAndName => ?_
  refine paramsRule_keeps.bind fun params => ?_
  refine TypeExpr.provisosRule_keeps.bind fun provisos => ?_
  refine (shrinks_mark .semicolon).keeps.bind fun _ => ?_
  exact keeps_pure _

theorem rule_startsWith : StartsWith ["function"] rule := (startsWith_keyword _).bind _

theorem resultAndName_parallel (h : Lockstep Token.isTypePart R R) :
    Parallel R R Eq resultAndName resultAndName := by
  have hname := Identifier.lowercase_parallel h
  refine Parallel.orElse ?_ ?_
  · refine (TypeExpr.rule_parallel h).bind_eq fun result => ?_
    refine hname.bind_eq fun name => ?_
    exact parallel_pure rfl
  · refine hname.bind_eq fun name => ?_
    exact parallel_pure rfl

theorem paramRule_parallel (h : Lockstep Token.isTypePart R R) : Parallel R R Eq paramRule paramRule := by
  refine (TypeExpr.rule_parallel h).bind_eq fun type => ?_
  refine (Identifier.lowercase_parallel h).optional.bind_eq fun name => ?_
  exact parallel_pure rfl

theorem paramsRule_parallel (h : Lockstep Token.isTypePart R R) : Parallel R R Eq paramsRule paramsRule := by
  have hparams := commaSeparated_parallel h paramRule_shrinks paramRule_shrinks (paramRule_parallel h)
  have hopening : Parallel R R Eq (mark .leftParen) (mark .leftParen) := typePart_mark_parallel h (by decide)
  have hclosing : Parallel R R Eq (mark .rightParen) (mark .rightParen) := typePart_mark_parallel h (by decide)
  exact (hopening.between hparams.orEmpty hclosing).orEmpty

theorem rule_parallel (h₀ : Lockstep Token.isTypePart R₀ R) (h : Lockstep Token.isTypePart R R)
    (hend : Lockstep (Token.isMark .semicolon) R S) : Parallel R₀ S Eq rule rule := by
  refine (typePart_keyword_parallel h₀ "function").bind_eq fun _ => ?_
  refine (resultAndName_parallel h).bind_eq fun resultAndName => ?_
  refine (paramsRule_parallel h).bind_eq fun params => ?_
  refine (TypeExpr.provisosRule_parallel h).bind_eq fun provisos => ?_
  refine (semicolon_parallel hend).bind_eq fun _ => ?_
  exact parallel_pure rfl

end FunctionHeader

namespace Function

/-- One item of a body: a definition that `nested` reads, or a token that does not close the body. -/
def item (nested : Rule Function) : Rule (Option Function) := (some <$> nested) <|> (do filler; return none)

/-- A header, a body and the closing word with its label, where `nested` reads the definitions in the
body. -/
def parts (nested : Rule Function) : Rule (FunctionHeader × List Function) := do
  let header ← FunctionHeader.rule
  let inner ← body nested
  Rule.closed "endfunction" Identifier.lowercase
  return (header, inner)

/-- A definition, where `nested` reads the definitions in its body. -/
def level (nested : Rule Function) : Rule Function := do
  let ((header, inner), span) ← Rule.spanned (parts nested)
  return ⟨header, span, inner⟩

variable {nested nested' : Rule Function}

theorem item_shrinks (h : Shrinks nested) : Shrinks (item nested) := by
  refine (h.map some).orElse ?_
  refine (shrinks_tokenThat _).bind fun _ => ?_
  exact keeps_pure none

theorem body_keeps (h : Shrinks nested) : Keeps (body nested) := by
  refine (item_shrinks h).keeps.many.bind fun items => ?_
  exact keeps_pure _

theorem parts_shrinks (h : Shrinks nested) : Shrinks (parts nested) := by
  refine FunctionHeader.rule_shrinks.bind fun header => ?_
  refine (body_keeps h).bind fun inner => ?_
  refine (closed_shrinks "endfunction" Identifier.lowercase_shrinks.keeps).keeps.bind fun _ => ?_
  exact keeps_pure _

theorem level_shrinks (h : Shrinks nested) : Shrinks (level nested) := by
  refine (parts_shrinks h).spanned.bind fun found => ?_
  exact keeps_pure _

section

variable {g : Function → Function} {w : Span → Span}

theorem item_parallel (h : Lockstep (fun _ => true) R R)
    (hnested : Parallel R R (fun f f' => f' = g f) nested nested') :
    Parallel R R (fun x x' => x' = x.map g) (item nested) (item nested') := by
  have hfiller : Parallel R R Eq filler filler :=
    parallel_tokenThat h (fun _ _ halike => by rw [halike.isWord_eq]) fun _ _ => rfl
  refine Parallel.orElse (hnested.bind fun f f' hf => parallel_pure ?_)
    (hfiller.bind_eq fun _ => parallel_pure rfl)
  rw [hf]
  rfl

theorem filterMap_id_map (items : List (Option Function)) :
    (items.map (Option.map g)).filterMap id = (items.filterMap id).map g := by
  rw [List.filterMap_map, List.map_filterMap]
  rfl

theorem body_parallel (h : Lockstep (fun _ => true) R R) (hs : Shrinks nested) (hs' : Shrinks nested')
    (hnested : Parallel R R (fun f f' => f' = g f) nested nested') :
    Parallel R R (fun fs fs' => fs' = fs.map g) (body nested) (body nested') := by
  refine ((item_parallel h hnested).many_map (item_shrinks hs) (item_shrinks hs')).bind
    fun items items' hitems => parallel_pure ?_
  rw [hitems, filterMap_id_map]

/-- Definitions run in parallel if those in their bodies do, up to a change `g` of functions that changes
spans by `w`. -/
theorem level_parallel (hg : ∀ header span inner, g ⟨header, span, inner⟩ = ⟨header, w span, inner.map g⟩)
    (h₀ : Lockstep (fun _ => true) R₀ R) (h : Lockstep (fun _ => true) R R)
    (hspan : ∀ ts ts' us us', R₀ ts ts' → R us us' → us <:+ ts → us.length < ts.length →
      spanRead ts' us' = w (spanRead ts us))
    (hs : Shrinks nested) (hs' : Shrinks nested')
    (hnested : Parallel R R (fun f f' => f' = g f) nested nested') :
    Parallel R₀ R (fun f f' => f' = g f) (level nested) (level nested') := by
  have hheader : Parallel R₀ R Eq FunctionHeader.rule FunctionHeader.rule :=
    FunctionHeader.rule_parallel (h₀.mono fun _ _ => rfl) (h.mono fun _ _ => rfl) (h.mono fun _ _ => rfl)
  have hclosed := closed_parallel h "endfunction" (Identifier.lowercase_parallel (h.mono fun _ _ => rfl))
  have hparts : Parallel R₀ R (fun x x' => x'.1 = x.1 ∧ x'.2 = x.2.map g) (parts nested) (parts nested') := by
    refine hheader.bind_eq fun header => ?_
    refine (body_parallel h hs hs' hnested).bind fun inner inner' hinner => ?_
    refine hclosed.bind_eq fun _ => ?_
    exact parallel_pure ⟨rfl, hinner⟩
  refine (hparts.spanned (W := fun span span' => span' = w span) (parts_shrinks hs) hspan).bind ?_
  rintro ⟨⟨header, inner⟩, span⟩ ⟨⟨header', inner'⟩, span'⟩ ⟨⟨hh, hi⟩, hsp⟩
  refine parallel_pure ?_
  dsimp only at hh hi hsp
  rw [hg, hh, hi, hsp]

end

theorem descends : Descends level where
  shrinks _ h := level_shrinks h
  parallel n r q hs hs' h := by
    have hid : Parallel (Below n) (Below n) (fun f f' => f' = id f) r q :=
      h.mono (fun _ _ hf => hf.symm) fun _ _ hus => hus
    refine (level_parallel (w := id) (fun _ _ _ => by rw [List.map_id]; rfl)
      (lockstep_below (Nat.le_refl _) _) (lockstep_below (Nat.le_succ n) _) ?_ hs hs' hid).mono
      (fun _ _ hf => hf.symm) fun _ _ hus => hus
    rintro ts _ us _ ⟨rfl, -⟩ ⟨rfl, -⟩ - -
    rfl

theorem rule_shrinks : Shrinks rule := descends.recursive_shrinks

theorem rule_eq (ts : List Token) : rule ts = level rule ts := descends.recursive_eq ts

theorem rule_startsWith : StartsWith ["function"] rule := by
  intro ts found h
  rw [rule_eq] at h
  exact (((FunctionHeader.rule_startsWith.bind _).spanned).bind _) ts found h

end Function

namespace Construct

theorem rule_shrinks : Shrinks rule := by
  refine Shrinks.orElse (Package.rule_shrinks.bind fun _ => keeps_pure _) ?_
  refine Shrinks.orElse (Typedef.rule_shrinks.bind fun _ => keeps_pure _) ?_
  refine Shrinks.orElse (Interface.rule_shrinks.bind fun _ => keeps_pure _) ?_
  refine Shrinks.orElse (Typeclass.rule_shrinks.bind fun _ => keeps_pure _) ?_
  refine Shrinks.orElse (Instance.rule_shrinks.bind fun _ => keeps_pure _) ?_
  refine Shrinks.orElse (Module.rule_shrinks.bind fun _ => keeps_pure _) ?_
  exact Function.rule_shrinks.bind fun _ => keeps_pure _

theorem rule_startsWith : StartsWith keywords rule := by
  refine (Package.rule_startsWith.bind _).orElse ?_
  refine (Typedef.rule_startsWith.bind _).orElse ?_
  refine (Interface.rule_startsWith.bind _).orElse ?_
  refine (Typeclass.rule_startsWith.bind _).orElse ?_
  refine (Instance.rule_startsWith.bind _).orElse ?_
  refine (Module.rule_startsWith.bind _).orElse ?_
  exact Function.rule_startsWith.bind _

/-- The rule for constructs of the kind at hand reads this construct from `ts` and leaves `us`. -/
def ReadFrom (ts us : List Token) : Construct → Prop
  | ofPackage p => Package.rule ts = some (p, us)
  | ofTypedef t => Typedef.rule ts = some (t, us)
  | ofInterface i => Interface.rule ts = some (i, us)
  | ofTypeclass t => Typeclass.rule ts = some (t, us)
  | ofInstance i => Instance.rule ts = some (i, us)
  | ofModule m => Module.rule ts = some (m, us)
  | ofFunction f => Function.rule ts = some (f, us)

/-- At most one of the rules for the kinds of construct applies at a place, so their order is free. -/
theorem rule_eq_some {ts us : List Token} {c : Construct} : rule ts = some (c, us) ↔ c.ReadFrom ts us := by
  have hfunction := Function.rule_startsWith.bind fun f => pure (ofFunction f)
  have hmodule := (Module.rule_startsWith.bind fun m => pure (ofModule m)).orElse hfunction
  have hinstance := (Instance.rule_startsWith.bind fun i => pure (ofInstance i)).orElse hmodule
  have htypeclass := (Typeclass.rule_startsWith.bind fun t => pure (ofTypeclass t)).orElse hinstance
  have hinterface := (Interface.rule_startsWith.bind fun i => pure (ofInterface i)).orElse htypeclass
  have htypedef := (Typedef.rule_startsWith.bind fun t => pure (ofTypedef t)).orElse hinterface
  rw [rule, Package.rule_startsWith.wrap_orElse_eq_some htypedef (by decide),
    Typedef.rule_startsWith.wrap_orElse_eq_some hinterface (by decide),
    Interface.rule_startsWith.wrap_orElse_eq_some htypeclass (by decide),
    Typeclass.rule_startsWith.wrap_orElse_eq_some hinstance (by decide),
    Instance.rule_startsWith.wrap_orElse_eq_some hmodule (by decide),
    Module.rule_startsWith.wrap_orElse_eq_some hfunction (by decide), wrap_eq_some]
  cases c <;> simp [ReadFrom]

end Construct

end BluespecDocs
