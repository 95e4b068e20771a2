import BluespecDocs.Proofs.FunctionCut
import BluespecDocs.Proofs.RuleCut
import BluespecDocs.Proofs.TypeGrammar

/-!
A construct read off the front of a token list is read again when the tokens behind it are cut off. Headers
end at a semicolon, blocks at their closing word, and functions at the word that closes them. The members of
a type definition end at semicolons of their own in front of the last one.
-/

namespace BluespecDocs

open Rule

variable {α : Type}

namespace Member

theorem fieldRule_headerOver {fieldName : Rule Identifier} (hname : PlainOver Token.isTypePart fieldName) :
    HeaderOver Token.isTypePart (fieldRule fieldName) :=
  fun R _ h hend => fieldRule_parallel h hend (hname R h)

theorem tagRule_headerOver : HeaderOver Token.isTypePart tagRule := by
  intro R S h hend
  refine (Identifier.capitalized_parallel h).bind_eq fun tag => ?_
  refine (semicolon_parallel hend).bind_eq fun _ => ?_
  exact parallel_pure rfl

theorem taggedUnion_startsWith (nested : Rule Member) : StartsWith ["union"] (taggedUnion nested) :=
  ((startsWith_keyword _).bind _).bind _

theorem taggedStruct_startsWith (nested : Rule Member) : StartsWith ["struct"] (taggedStruct nested) :=
  ((startsWith_keyword _).bind _).bind _

/-- No member starts with a closing brace. -/
theorem item_of_rightBrace {fieldName : Rule Identifier} {nested : Rule Member}
    (hname : PlainOver Token.isTypePart fieldName) (hstart : StartsWith ["union", "struct"] nested)
    (c : Token) (ts : List Token) (hc : c.isMark .rightBrace = true) :
    (fieldRule fieldName <|> nested) (c :: ts) = none := by
  cases hr : (fieldRule fieldName <|> nested) (c :: ts) with
  | none => rfl
  | some found =>
      rcases orElse_eq_some.mp hr with hfield | ⟨-, hnested⟩
      · obtain ⟨q, s, hshape, hq, hs⟩ := (fieldRule_headerOver hname).shape hfield
        cases q with
        | nil =>
            cases hshape
            rw [Token.isMark, Token.kind_of_isMark hc] at hs
            cases hs
        | cons t q =>
            cases hshape
            have htype := hq c List.mem_cons_self
            rw [Token.isTypePart, Token.kind_of_isMark hc] at htype
            cases htype
      · obtain ⟨t, us, hcons, word, -, hword⟩ := hstart _ _ hnested
        cases hcons
        rw [Token.isWord_of_isMark hc] at hword
        cases hword

theorem block_cutInside {fieldName : Rule Identifier} {nested : Rule Member}
    (hkeeps : Keeps fieldName) (hname : PlainOver Token.isTypePart fieldName) (hs : Shrinks nested)
    (hstart : StartsWith ["union", "struct"] nested) (hnested : CutInside nested) :
    CutInside (block fieldName nested) := by
  have hitem := (fieldRule_headerOver hname).orElse_cutInside (fieldRule_shrinks hkeeps).keeps
    (fun _ => Token.not_isTypePart_of_semicolon) hnested
  exact hitem.between_atLeastOne (item_shrinks hkeeps hs) _ _ (item_of_rightBrace hname hstart)

theorem structBlock_cutInside {nested : Rule Member} (hs : Shrinks nested)
    (hstart : StartsWith ["union", "struct"] nested) (hnested : CutInside nested) :
    CutInside (structBlock nested) := by
  have hname : PlainOver Token.isTypePart Identifier.lowercase := fun _ h => Identifier.lowercase_parallel h
  refine (cutInside_token _).bind fun _ => ?_
  exact block_cutInside Identifier.lowercase_shrinks.keeps hname hs hstart hnested

theorem unionBlock_cutInside {nested : Rule Member} (hs : Shrinks nested)
    (hstart : StartsWith ["union", "struct"] nested) (hnested : CutInside nested) :
    CutInside (unionBlock nested) := by
  have hname : PlainOver Token.isTypePart Identifier.capitalized := fun _ h => Identifier.capitalized_parallel h
  refine (cutInside_token _).bind fun _ => ?_
  refine (cutInside_token _).bind fun _ => ?_
  exact block_cutInside Identifier.capitalized_shrinks.keeps hname hs hstart hnested

theorem nestedRule_startsWith : StartsWith ["union", "struct"] nestedRule := by
  intro ts found h
  rw [nestedRule_eq] at h
  exact ((taggedUnion_startsWith _).orElse (taggedStruct_startsWith _)) ts found h

theorem nestedRule_cutInside : CutInside nestedRule := by
  have htag : CutInside tagRule :=
    (tagRule_headerOver.cutEnd tagRule_shrinks.keeps fun _ => Token.not_isTypePart_of_semicolon).cutInside
  refine descends.recursive_cutInside
    (fun r => (taggedUnion_startsWith r).orElse (taggedStruct_startsWith r)) fun r hs hstart hr => ?_
  have hunion : CutInside (taggedUnion r) :=
    (unionBlock_cutInside hs hstart hr).bind fun _ => htag.bind fun _ => cutInside_pure _
  have hstruct : CutInside (taggedStruct r) :=
    (structBlock_cutInside hs hstart hr).bind fun _ => htag.bind fun _ => cutInside_pure _
  exact hunion.orElse_startsWith hstruct (taggedUnion_startsWith r) (taggedStruct_startsWith r) (by decide)

end Member

namespace Typedef

theorem synonymRule_headerOver : HeaderOver Token.isTypePart synonymRule :=
  fun _ _ h hend => synonymRule_parallel h hend

theorem withBody_enumBody_headerOver : HeaderOver Token.isNotSemicolon (withBody enumBody) := by
  intro R S h hend
  have htype := h.mono fun _ => Token.isNotSemicolon_of_isTypePart
  exact withBody_parallel htype hend (enumBody_parallel h)

theorem withBody_cutEnd {body : Rule TypedefBody} (h : CutInside body) : CutEnd (withBody body) := by
  have htarget : CutInside target := PlainOver.cutInside (fun _ hR => target_parallel hR) target_shrinks.keeps
    fun _ => Token.not_isTypePart_of_semicolon
  have hderiving : CutInside derivingRule := PlainOver.cutInside (fun _ hR => derivingRule_parallel hR)
    derivingRule_keeps fun _ => Token.not_isTypePart_of_semicolon
  refine h.bind_end fun body => ?_
  refine htarget.bind_end fun target => ?_
  refine hderiving.bind_end fun derived => ?_
  exact cutEnd_semicolon _

theorem rule_cutEnd : CutEnd rule := by
  have hstruct : CutEnd (withBody structBody) := withBody_cutEnd
    ((Member.structBlock_cutInside Member.nestedRule_shrinks Member.nestedRule_startsWith
      Member.nestedRule_cutInside).bind fun _ => cutInside_pure _)
  have hunion : CutEnd (withBody unionBody) := withBody_cutEnd
    ((Member.unionBlock_cutInside Member.nestedRule_shrinks Member.nestedRule_startsWith
      Member.nestedRule_cutInside).bind fun _ => cutInside_pure _)
  have hstructStart : StartsWith ["struct"] (withBody structBody) :=
    (((startsWith_keyword _).bind _).bind _).bind _
  have hunionStart : StartsWith ["union"] (withBody unionBody) :=
    (((startsWith_keyword _).bind _).bind _).bind _
  have hblock := hstruct.orElse_startsWith hunion hstructStart hunionStart (by decide)
  have henum := withBody_enumBody_headerOver.orElse_cutEnd (withBody_shrinks enumBody_shrinks).keeps
    (fun s hs => by rw [Token.isNotSemicolon, hs]; rfl) hblock
  exact (cutInside_token _).bind_end fun _ => synonymRule_headerOver.orElse_cutEnd
    synonymRule_shrinks.keeps (fun _ => Token.not_isTypePart_of_semicolon) henum

end Typedef

namespace Rule

/-- A block survives a cut behind its closing word and label if its header survives every cut. -/
theorem block_cut {header : Rule α} (hheader : ReadsAnywhere header)
    {closing : String} {wanted : LetterCase} {p z : List Token} {a : α}
    (h : block header closing (TokenReader.rule (Identifier.ofTokenIn wanted)) (p ++ z) = some (a, z)) :
    block header closing (TokenReader.rule (Identifier.ofTokenIn wanted)) p = some (a, []) := by
  obtain ⟨body, word, tail, hread, hbody, hword, hz⟩ := block_eq_some.mp h
  obtain ⟨label, hlabel⟩ := Token.afterLabel_suffix wanted tail
  have hcut : header (p ++ z) = some (a, (body ++ word :: label) ++ z) := by
    rw [hread, hz, List.append_assoc, List.cons_append, hlabel]
  have hend : Token.afterLabel wanted label = [] := by
    apply Token.afterLabel_cut (z := z)
    rw [hz, hlabel, List.nil_append]
  exact block_eq_some.mpr ⟨body, word, label, hheader.cut hcut, hbody, hword, hend.symm⟩

/-- Trees that may stand in front of anything are read wherever they stand. -/
theorem Reads.readsAnywhere {τ : Type} {tokens : τ → List Token} {value : τ → α} {r : Rule α}
    (h : ∀ n, Reads n (fun _ => True) tokens value r) : ReadsAnywhere r := by
  intro p z m a hr z'
  obtain ⟨x, hx, rfl⟩ := (h _).sound _ a _ (Nat.lt_succ_self _) hr
  rw [← List.append_assoc] at hx
  rw [List.append_cancel_right hx, List.append_assoc]
  exact (h _).complete x _ (Nat.lt_succ_self _) trivial

end Rule

theorem Interface.header_readsAnywhere : ReadsAnywhere Interface.header :=
  HeaderOver.readsAnywhere (fun _ _ h hend => header_parallel h hend) fun _ => Token.not_isTypePart_of_semicolon

theorem Typeclass.header_readsAnywhere : ReadsAnywhere Typeclass.header :=
  HeaderOver.readsAnywhere (fun _ _ h hend => header_parallel h hend) fun _ => Token.not_isTypePart_of_semicolon

theorem Instance.header_readsAnywhere : ReadsAnywhere Instance.header :=
  HeaderOver.readsAnywhere (fun _ _ h hend => header_parallel h hend) fun _ => Token.not_isTypePart_of_semicolon

namespace Module

/-- A module header is the word, a type in brackets where there is one, and a name. -/
theorem header_reads (n : Nat) : Reads n (fun _ => True)
    (fun p : WordLeaf "module" × Option (MarkLeaf .leftBracket × TypeTree × MarkLeaf .rightBracket) ×
        NameLeaf .lowercase =>
      p.1.token :: (optionalTokens (fun c => c.1.token :: (c.2.1.tokens ++ [c.2.2.token])) p.2.1 ++ [p.2.2.token]))
    (fun p => (⟨p.2.2.value, p.2.1.map fun c => c.2.1.value⟩ : Module)) header := by
  have hcontext : Reads n (fun _ => True) _ _ (between .leftBracket .rightBracket TypeExpr.rule) :=
    ((TypeExpr.rule_reads n).between .leftBracket .rightBracket (TypeExpr.ends_mark (by decide))).mono
      (Nat.le_succ n) fun _ hus => hus
  have hname : ∀ context, Reads n (fun _ => True) (fun x : NameLeaf .lowercase => [x.token])
      (fun x => (⟨x.value, context⟩ : Module)) (do return ⟨← Identifier.lowercase, context⟩) := fun context =>
    (reads_token _).map (Module.mk · context)
  refine Reads.token_bind fun _ => hcontext.optional.bind hname fun name us _ => ⟨trivial, ?_⟩
  have hbracket : mark .leftBracket ([name.token] ++ us) = none :=
    avoids_of_word name.kind_eq [.leftBracket] us _ (List.mem_singleton_self _)
  rw [between, bind_apply, hbracket, Option.bind_none]

theorem header_readsAnywhere : ReadsAnywhere header := Reads.readsAnywhere header_reads

end Module

namespace Construct

/-- A construct is read again when the tokens behind it are cut off. -/
theorem rule_cut {p z : List Token} {c : Construct} (h : rule (p ++ z) = some (c, z)) :
    rule p = some (c, []) := by
  have hsemicolon : ∀ s : Token, s.isMark .semicolon = true → s.isTypePart = false :=
    fun _ => Token.not_isTypePart_of_semicolon
  rw [rule_eq_some] at h ⊢
  cases c with
  | ofPackage p =>
      have hheader : HeaderOver Token.isTypePart Package.rule :=
        fun _ _ hR hend => Package.rule_parallel hR hend
      exact (hheader.cut hsemicolon (m := []) h).1
  | ofTypedef t => exact (Typedef.rule_cutEnd.cut (m := []) h).1
  | ofInterface i => exact block_cut Interface.header_readsAnywhere h
  | ofTypeclass t => exact block_cut Typeclass.header_readsAnywhere h
  | ofInstance i => exact block_cut Instance.header_readsAnywhere h
  | ofModule m => exact block_cut Module.header_readsAnywhere h
  | ofFunction f => exact Function.rule_cut h

end Construct

end BluespecDocs
