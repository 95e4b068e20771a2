import BluespecDocs.Declaration
import BluespecDocs.Proofs.TypeRules

/-!
The rules for declarations and statements. Each reads at least one token and starts with a word of its own,
so at most one of them applies at a place. Headers run in parallel up to and with the semicolon that ends
them; whole rules run in parallel at places where all tokens behind are alike.
-/

namespace BluespecDocs

open Rule

variable {α β : Type} {R R₀ S : List Token → List Token → Prop}

namespace Rule

/-- A rule that applies only where one of some words stands. -/
def StartsWith (words : List String) (r : Rule α) : Prop :=
  ∀ ts found, r ts = some found → ∃ t us, ts = t :: us ∧ ∃ word ∈ words, t.isWord word = true

theorem startsWith_keyword (name : String) : StartsWith [name] (keyword name) := by
  rintro ts ⟨a, us⟩ h
  obtain ⟨t, hts, ht⟩ := tokenThat_eq_some.mp h
  exact ⟨t, us, hts, name, List.mem_singleton_self name, ht⟩

theorem StartsWith.bind {words : List String} {r : Rule α} (h : StartsWith words r) (k : α → Rule β) :
    StartsWith words (r >>= k) := by
  intro ts found hts
  obtain ⟨a, us, hr, -⟩ := bind_eq_some.mp hts
  exact h ts (a, us) hr

theorem StartsWith.orElse {words words' : List String} {r q : Rule α} (h : StartsWith words r)
    (h' : StartsWith words' q) : StartsWith (words ++ words') (r <|> q) := by
  intro ts found hts
  rcases orElse_eq_some.mp hts with hr | ⟨-, hq⟩
  · obtain ⟨t, us, hcons, word, hmem, hword⟩ := h ts found hr
    exact ⟨t, us, hcons, word, List.mem_append_left _ hmem, hword⟩
  · obtain ⟨t, us, hcons, word, hmem, hword⟩ := h' ts found hq
    exact ⟨t, us, hcons, word, List.mem_append_right _ hmem, hword⟩

theorem StartsWith.spanned {words : List String} {r : Rule α} (h : StartsWith words r) :
    StartsWith words (spanned r) := by
  rintro ts ⟨⟨a, span⟩, us⟩ hts
  exact h ts (a, us) (spanned_eq_some.mp hts).1

/-- Of two rules that start with different words, one does not apply where the other does. -/
theorem StartsWith.eq_none {words words' : List String} {r : Rule α} {q : Rule β}
    (h : StartsWith words r) (h' : StartsWith words' q) (hdisjoint : ∀ word ∈ words, word ∉ words')
    {ts : List Token} {found : β × List Token} (hq : q ts = some found) : r ts = none := by
  cases hr : r ts with
  | none => rfl
  | some other =>
      obtain ⟨t, us, rfl, word, hmem, hword⟩ := h ts other hr
      obtain ⟨t', us', hcons, word', hmem', hword'⟩ := h' _ found hq
      cases hcons
      exact absurd (Token.eq_of_isWord hword hword' ▸ hmem') (hdisjoint word hmem)

theorem wrap_eq_some {r : Rule α} {f : α → β} {ts us : List Token} {b : β} :
    (r >>= fun a => pure (f a)) ts = some (b, us) ↔ ∃ a, r ts = some (a, us) ∧ b = f a := by
  rw [bind_eq_some]
  constructor
  · rintro ⟨a, vs, hr, hb⟩
    cases hb
    exact ⟨a, hr, rfl⟩
  · rintro ⟨a, hr, rfl⟩
    exact ⟨a, us, hr, rfl⟩

/-- A choice among rules that start with different words: either may apply, whatever stands first. -/
theorem StartsWith.wrap_orElse_eq_some {words words' : List String} {r : Rule α} {q : Rule β}
    (h : StartsWith words r) (h' : StartsWith words' q) (hdisjoint : ∀ word ∈ words, word ∉ words')
    {f : α → β} {ts us : List Token} {b : β} :
    ((r >>= fun a => pure (f a)) <|> q) ts = some (b, us) ↔
      (∃ a, r ts = some (a, us) ∧ b = f a) ∨ q ts = some (b, us) := by
  rw [orElse_eq_some, wrap_eq_some]
  constructor
  · rintro (hr | ⟨-, hq⟩)
    · exact Or.inl hr
    · exact Or.inr hq
  · rintro (hr | hq)
    · exact Or.inl hr
    · exact Or.inr ⟨(h.bind _).eq_none h' hdisjoint hq, hq⟩

theorem semicolon_parallel (h : Lockstep (Token.isMark .semicolon) R S) :
    Parallel R S Eq (mark .semicolon) (mark .semicolon) := parallel_mark h .semicolon fun _ ht => ht

end Rule

namespace Package

theorem rule_shrinks : Shrinks rule := by
  refine (shrinks_keyword "package").bind fun _ => ?_
  refine Identifier.capitalized_shrinks.keeps.bind fun name => ?_
  refine (shrinks_mark .semicolon).keeps.bind fun _ => ?_
  exact keeps_pure _

theorem rule_startsWith : StartsWith ["package"] rule := (startsWith_keyword _).bind _

theorem rule_parallel (h : Lockstep Token.isTypePart R R) (hend : Lockstep (Token.isMark .semicolon) R S) :
    Parallel R S Eq rule rule := by
  refine (typePart_keyword_parallel h "package").bind_eq fun _ => ?_
  refine (Identifier.capitalized_parallel h).bind_eq fun name => ?_
  refine (semicolon_parallel hend).bind_eq fun _ => ?_
  exact parallel_pure rfl

end Package

namespace Import

theorem words_shrinks : Shrinks (do
    keyword "import"
    let package ← Identifier.capitalized
    mark .doubleColon
    mark .star
    mark .semicolon
    return package) := by
  refine (shrinks_keyword "import").bind fun _ => ?_
  refine Identifier.capitalized_shrinks.keeps.bind fun package => ?_
  refine (shrinks_mark .doubleColon).keeps.bind fun _ => ?_
  refine (shrinks_mark .star).keeps.bind fun _ => ?_
  refine (shrinks_mark .semicolon).keeps.bind fun _ => ?_
  exact keeps_pure package

theorem rule_shrinks : Shrinks rule := by
  refine words_shrinks.spanned.bind fun found => ?_
  exact keeps_pure _

theorem rule_startsWith : StartsWith ["import"] rule :=
  (((startsWith_keyword _).bind _).spanned).bind _

end Import

namespace Export

theorem members_shrinks : Shrinks members := shrinks_between _ _ (shrinks_mark _).keeps

theorem words_shrinks : Shrinks (do
    keyword "export"
    let name ← Identifier.any
    let members ← optional members
    mark .semicolon
    return (name, members.isSome)) := by
  refine (shrinks_keyword "export").bind fun _ => ?_
  refine Identifier.any_shrinks.keeps.bind fun name => ?_
  refine members_shrinks.keeps.optional.bind fun members => ?_
  refine (shrinks_mark .semicolon).keeps.bind fun _ => ?_
  exact keeps_pure _

theorem rule_shrinks : Shrinks rule := by
  refine words_shrinks.spanned.bind fun found => ?_
  exact keeps_pure _

theorem rule_startsWith : StartsWith ["export"] rule :=
  (((startsWith_keyword _).bind _).spanned).bind _

end Export

namespace Statement

theorem rule_shrinks : Shrinks rule := by
  have himport : Shrinks (do return ofImport (← Import.rule)) := Import.rule_shrinks.bind fun _ => keeps_pure _
  have hexport : Shrinks (do return ofExport (← Export.rule)) := Export.rule_shrinks.bind fun _ => keeps_pure _
  exact himport.orElse hexport

theorem rule_startsWith : StartsWith ["import", "export"] rule := by
  have himport := Import.rule_startsWith.bind fun i => pure (ofImport i)
  have hexport := Export.rule_startsWith.bind fun e => pure (ofExport e)
  exact himport.orElse hexport

end Statement

namespace Token

/-- Whether a token can stand in front of the semicolon that ends a header or a member. -/
def isNotSemicolon (t : Token) : Bool := !t.isMark .semicolon

theorem isNotSemicolon_of_isTypePart {t : Token} (h : t.isTypePart = true) : t.isNotSemicolon = true := by
  rw [isNotSemicolon, Bool.not_eq_true']
  cases hm : t.isMark .semicolon with
  | false => rfl
  | true =>
      rw [isTypePart, kind_of_isMark hm] at h
      cases h

theorem isNotSemicolon_of_isMark {m : Mark} (hm : m ≠ .semicolon) {t : Token} (h : t.isMark m = true) :
    t.isNotSemicolon = true := by
  rw [isNotSemicolon, isMark, kind_of_isMark h, Bool.not_eq_true', beq_eq_false_iff_ne]
  intro heq
  cases heq
  exact hm rfl

end Token

namespace EnumElement

theorem rule_shrinks : Shrinks rule := by
  have hvalue : Shrinks (do mark .equals; IntLiteral.rule) :=
    (shrinks_mark .equals).bind fun _ => IntLiteral.rule_shrinks.keeps
  refine Identifier.capitalized_shrinks.bind fun name => ?_
  refine hvalue.keeps.optional.bind fun value => ?_
  exact keeps_pure _

theorem rule_parallel (h : Lockstep Token.isNotSemicolon R R) : Parallel R R Eq rule rule := by
  have htype := h.mono fun _ => Token.isNotSemicolon_of_isTypePart
  have hequals : Parallel R R Eq (mark .equals) (mark .equals) :=
    parallel_mark h .equals fun _ => Token.isNotSemicolon_of_isMark (by decide)
  have hvalue := hequals.bind_eq fun _ => IntLiteral.rule_parallel htype
  refine (Identifier.capitalized_parallel htype).bind_eq fun name => ?_
  refine hvalue.optional.bind_eq fun value => ?_
  exact parallel_pure rfl

end EnumElement

namespace Member

variable {fieldName : Rule Identifier} {nested nested' : Rule Member}

theorem fieldRule_shrinks (hname : Keeps fieldName) : Shrinks (fieldRule fieldName) := by
  refine TypeExpr.rule_shrinks.bind fun type => ?_
  refine hname.bind fun name => ?_
  refine (shrinks_mark .semicolon).keeps.bind fun _ => ?_
  exact keeps_pure _

theorem item_shrinks (hname : Keeps fieldName) (hnested : Shrinks nested) :
    Shrinks (fieldRule fieldName <|> nested) := (fieldRule_shrinks hname).orElse hnested

theorem block_shrinks (hname : Keeps fieldName) (hnested : Shrinks nested) :
    Shrinks (block fieldName nested) := by
  have hmembers := (item_shrinks hname hnested).atLeastOne
  exact shrinks_between .leftBrace .rightBrace hmembers.keeps

theorem structBlock_shrinks (hnested : Shrinks nested) : Shrinks (structBlock nested) := by
  refine (shrinks_keyword "struct").bind fun _ => ?_
  exact (block_shrinks Identifier.lowercase_shrinks.keeps hnested).keeps

theorem unionBlock_shrinks (hnested : Shrinks nested) : Shrinks (unionBlock nested) := by
  refine (shrinks_keyword "union").bind fun _ => ?_
  refine (shrinks_keyword "tagged").keeps.bind fun _ => ?_
  exact (block_shrinks Identifier.capitalized_shrinks.keeps hnested).keeps

theorem tagRule_shrinks : Shrinks tagRule := by
  refine Identifier.capitalized_shrinks.bind fun tag => ?_
  refine (shrinks_mark .semicolon).keeps.bind fun _ => ?_
  exact keeps_pure tag

theorem fieldRule_parallel (h : Lockstep Token.isTypePart R R) (hend : Lockstep (Token.isMark .semicolon) R S)
    (hname : Parallel R R Eq fieldName fieldName) :
    Parallel R S Eq (fieldRule fieldName) (fieldRule fieldName) := by
  refine (TypeExpr.rule_parallel h).bind_eq fun type => ?_
  refine hname.bind_eq fun name => ?_
  refine (semicolon_parallel hend).bind_eq fun _ => ?_
  exact parallel_pure rfl

theorem block_parallel (h : Lockstep (fun _ => true) R R) (hs : Shrinks nested) (hs' : Shrinks nested')
    (hkeeps : Keeps fieldName) (hname : Parallel R R Eq fieldName fieldName)
    (hnested : Parallel R R Eq nested nested') :
    Parallel R R Eq (block fieldName nested) (block fieldName nested') := by
  have hmark (m : Mark) : Parallel R R Eq (mark m) (mark m) := parallel_mark h m fun _ _ => rfl
  have hfield := fieldRule_parallel (h.mono fun _ _ => rfl) (h.mono fun _ _ => rfl) hname
  have hitem := hfield.orElse hnested
  have hmembers := hitem.atLeastOne (item_shrinks hkeeps hs) (item_shrinks hkeeps hs')
  exact (hmark .leftBrace).between hmembers (hmark .rightBrace)

theorem structBlock_parallel (h₀ : Lockstep (fun _ => true) R₀ R) (h : Lockstep (fun _ => true) R R)
    (hs : Shrinks nested) (hs' : Shrinks nested') (hnested : Parallel R R Eq nested nested') :
    Parallel R₀ R Eq (structBlock nested) (structBlock nested') := by
  have hname := Identifier.lowercase_parallel (h.mono fun _ _ => rfl)
  refine (parallel_keyword h₀ "struct" fun _ _ => rfl).bind_eq fun _ => ?_
  exact block_parallel h hs hs' Identifier.lowercase_shrinks.keeps hname hnested

theorem unionBlock_parallel (h₀ : Lockstep (fun _ => true) R₀ R) (h : Lockstep (fun _ => true) R R)
    (hs : Shrinks nested) (hs' : Shrinks nested') (hnested : Parallel R R Eq nested nested') :
    Parallel R₀ R Eq (unionBlock nested) (unionBlock nested') := by
  have hname := Identifier.capitalized_parallel (h.mono fun _ _ => rfl)
  refine (parallel_keyword h₀ "union" fun _ _ => rfl).bind_eq fun _ => ?_
  refine (parallel_keyword h "tagged" fun _ _ => rfl).bind_eq fun _ => ?_
  exact block_parallel h hs hs' Identifier.capitalized_shrinks.keeps hname hnested

theorem tagRule_parallel (h : Lockstep (fun _ => true) R R) : Parallel R R Eq tagRule tagRule := by
  refine (Identifier.capitalized_parallel (h.mono fun _ _ => rfl)).bind_eq fun tag => ?_
  refine (semicolon_parallel (h.mono fun _ _ => rfl)).bind_eq fun _ => ?_
  exact parallel_pure rfl

/-- A tagged union with its tag, where `nested` reads members that are not fields. -/
def taggedUnion (nested : Rule Member) : Rule Member := do
  let members ← unionBlock nested
  return union members (← tagRule)

/-- A structure with its tag, where `nested` reads members that are not fields. -/
def taggedStruct (nested : Rule Member) : Rule Member := do
  let members ← structBlock nested
  return struct members (← tagRule)

theorem taggedUnion_shrinks (h : Shrinks nested) : Shrinks (taggedUnion nested) := by
  refine (unionBlock_shrinks h).bind fun members => ?_
  refine tagRule_shrinks.keeps.bind fun tag => ?_
  exact keeps_pure _

theorem taggedStruct_shrinks (h : Shrinks nested) : Shrinks (taggedStruct nested) := by
  refine (structBlock_shrinks h).bind fun members => ?_
  refine tagRule_shrinks.keeps.bind fun tag => ?_
  exact keeps_pure _

theorem taggedUnion_parallel (h₀ : Lockstep (fun _ => true) R₀ R) (h : Lockstep (fun _ => true) R R)
    (hs : Shrinks nested) (hs' : Shrinks nested') (hnested : Parallel R R Eq nested nested') :
    Parallel R₀ R Eq (taggedUnion nested) (taggedUnion nested') := by
  refine (unionBlock_parallel h₀ h hs hs' hnested).bind_eq fun members => ?_
  refine (tagRule_parallel h).bind_eq fun tag => ?_
  exact parallel_pure rfl

theorem taggedStruct_parallel (h₀ : Lockstep (fun _ => true) R₀ R) (h : Lockstep (fun _ => true) R R)
    (hs : Shrinks nested) (hs' : Shrinks nested') (hnested : Parallel R R Eq nested nested') :
    Parallel R₀ R Eq (taggedStruct nested) (taggedStruct nested') := by
  refine (structBlock_parallel h₀ h hs hs' hnested).bind_eq fun members => ?_
  refine (tagRule_parallel h).bind_eq fun tag => ?_
  exact parallel_pure rfl

theorem descends : Descends fun nested => taggedUnion nested <|> taggedStruct nested where
  shrinks _ h := (taggedUnion_shrinks h).orElse (taggedStruct_shrinks h)
  parallel n _ _ hs hs' h := by
    have hfirst : Lockstep (fun _ => true) (Below (n + 1)) (Below n) := lockstep_below (Nat.le_refl _) _
    have hlater : Lockstep (fun _ => true) (Below n) (Below n) := lockstep_below (Nat.le_succ n) _
    have hunion := taggedUnion_parallel hfirst hlater hs hs' h
    have hstruct := taggedStruct_parallel hfirst hlater hs hs' h
    exact hunion.orElse hstruct

theorem nestedRule_shrinks : Shrinks nestedRule := descends.recursive_shrinks

theorem nestedRule_eq (ts : List Token) :
    nestedRule ts = (taggedUnion nestedRule <|> taggedStruct nestedRule) ts := descends.recursive_eq ts

theorem nestedRule_parallel (h : Lockstep (fun _ => true) R R) : Parallel R R Eq nestedRule nestedRule := by
  refine descends.recursive_parallel descends fun r q hs hs' hnested => ?_
  have hunion := taggedUnion_parallel h h hs hs' hnested
  have hstruct := taggedStruct_parallel h h hs hs' hnested
  exact hunion.orElse hstruct

end Member

namespace Typedef

theorem target_shrinks : Shrinks target := by
  refine Identifier.capitalized_shrinks.bind fun name => ?_
  refine TypeFormal.listRule_shrinks.keeps.optional.bind fun formals => ?_
  exact keeps_pure _

theorem derivingRule_keeps : Keeps derivingRule := by
  refine Keeps.orEmpty (Shrinks.keeps ?_)
  refine (shrinks_keyword "deriving").bind fun _ => ?_
  exact Identifier.capitalized_shrinks.parenthesized.keeps

theorem synonymRule_shrinks : Shrinks synonymRule := by
  refine TypeExpr.rule_shrinks.bind fun type => ?_
  refine target_shrinks.keeps.bind fun target => ?_
  refine (shrinks_mark .semicolon).keeps.bind fun _ => ?_
  exact keeps_pure _

theorem withBody_shrinks {body : Rule TypedefBody} (h : Shrinks body) : Shrinks (withBody body) := by
  refine h.bind fun body => ?_
  refine target_shrinks.keeps.bind fun target => ?_
  refine derivingRule_keeps.bind fun derived => ?_
  refine (shrinks_mark .semicolon).keeps.bind fun _ => ?_
  exact keeps_pure _

theorem enumBody_shrinks : Shrinks enumBody := by
  have helements := shrinks_between .leftBrace .rightBrace EnumElement.rule_shrinks.commaSeparated.keeps
  refine (shrinks_keyword "enum").bind fun _ => ?_
  refine helements.keeps.bind fun elements => ?_
  exact keeps_pure _

theorem structBody_shrinks : Shrinks structBody := by
  refine (Member.structBlock_shrinks Member.nestedRule_shrinks).bind fun members => ?_
  exact keeps_pure _

theorem unionBody_shrinks : Shrinks unionBody := by
  refine (Member.unionBlock_shrinks Member.nestedRule_shrinks).bind fun members => ?_
  exact keeps_pure _

theorem rule_shrinks : Shrinks rule := by
  have henum := withBody_shrinks enumBody_shrinks
  have hstruct := withBody_shrinks structBody_shrinks
  have hunion := withBody_shrinks unionBody_shrinks
  refine (shrinks_keyword "typedef").bind fun _ => ?_
  exact (synonymRule_shrinks.orElse (henum.orElse (hstruct.orElse hunion))).keeps

theorem rule_startsWith : StartsWith ["typedef"] rule := (startsWith_keyword _).bind _

theorem target_parallel (h : Lockstep Token.isTypePart R R) : Parallel R R Eq target target := by
  refine (Identifier.capitalized_parallel h).bind_eq fun name => ?_
  refine (TypeFormal.listRule_parallel h).optional.bind_eq fun formals => ?_
  exact parallel_pure rfl

theorem derivingRule_parallel (h : Lockstep Token.isTypePart R R) :
    Parallel R R Eq derivingRule derivingRule := by
  have hname := Identifier.capitalized_parallel h
  refine Parallel.orEmpty ?_
  refine (typePart_keyword_parallel h "deriving").bind_eq fun _ => ?_
  exact parenthesized_parallel h h Identifier.capitalized_shrinks Identifier.capitalized_shrinks hname

theorem synonymRule_parallel (h : Lockstep Token.isTypePart R R)
    (hend : Lockstep (Token.isMark .semicolon) R S) : Parallel R S Eq synonymRule synonymRule := by
  refine (TypeExpr.rule_parallel h).bind_eq fun type => ?_
  refine (target_parallel h).bind_eq fun target => ?_
  refine (semicolon_parallel hend).bind_eq fun _ => ?_
  exact parallel_pure rfl

theorem withBody_parallel (h : Lockstep Token.isTypePart R R) (hend : Lockstep (Token.isMark .semicolon) R S)
    {body : Rule TypedefBody} (hbody : Parallel R R Eq body body) :
    Parallel R S Eq (withBody body) (withBody body) := by
  refine hbody.bind_eq fun body => ?_
  refine (target_parallel h).bind_eq fun target => ?_
  refine (derivingRule_parallel h).bind_eq fun derived => ?_
  refine (semicolon_parallel hend).bind_eq fun _ => ?_
  exact parallel_pure rfl

theorem enumBody_parallel (h : Lockstep Token.isNotSemicolon R R) : Parallel R R Eq enumBody enumBody := by
  have htype := h.mono fun _ => Token.isNotSemicolon_of_isTypePart
  have hmark {m : Mark} (hm : m ≠ .semicolon) : Parallel R R Eq (mark m) (mark m) :=
    parallel_mark h m fun _ => Token.isNotSemicolon_of_isMark hm
  have helements := commaSeparated_parallel htype EnumElement.rule_shrinks EnumElement.rule_shrinks
    (EnumElement.rule_parallel h)
  have hbraces : Parallel R R Eq (between .leftBrace .rightBrace (commaSeparated EnumElement.rule))
      (between .leftBrace .rightBrace (commaSeparated EnumElement.rule)) :=
    (hmark (by decide)).between helements (hmark (by decide))
  refine (typePart_keyword_parallel htype "enum").bind_eq fun _ => ?_
  refine hbraces.bind_eq fun elements => ?_
  exact parallel_pure rfl

theorem structBody_parallel (h : Lockstep (fun _ => true) R R) : Parallel R R Eq structBody structBody := by
  have hmembers := Member.structBlock_parallel h h Member.nestedRule_shrinks Member.nestedRule_shrinks
    (Member.nestedRule_parallel h)
  refine hmembers.bind_eq fun members => ?_
  exact parallel_pure rfl

theorem unionBody_parallel (h : Lockstep (fun _ => true) R R) : Parallel R R Eq unionBody unionBody := by
  have hmembers := Member.unionBlock_parallel h h Member.nestedRule_shrinks Member.nestedRule_shrinks
    (Member.nestedRule_parallel h)
  refine hmembers.bind_eq fun members => ?_
  exact parallel_pure rfl

theorem rule_parallel (h : Lockstep (fun _ => true) R R) : Parallel R R Eq rule rule := by
  have htype : Lockstep Token.isTypePart R R := h.mono fun _ _ => rfl
  have hend : Lockstep (Token.isMark .semicolon) R R := h.mono fun _ _ => rfl
  have henum := withBody_parallel htype hend (enumBody_parallel (h.mono fun _ _ => rfl))
  have hstruct := withBody_parallel htype hend (structBody_parallel h)
  have hunion := withBody_parallel htype hend (unionBody_parallel h)
  refine (typePart_keyword_parallel htype "typedef").bind_eq fun _ => ?_
  exact (synonymRule_parallel htype hend).orElse (henum.orElse (hstruct.orElse hunion))

end Typedef

end BluespecDocs
