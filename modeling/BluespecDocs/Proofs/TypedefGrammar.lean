import BluespecDocs.Proofs.DeclarationCut
import BluespecDocs.Proofs.TypeGrammar

/-!
The rule for type definitions reads the grammar of type definitions. The words `enum`, `struct`, `union` and
`tagged` are names like any other, so a block starts like an alias or a field whose type is that word. What
stands behind the word tells them apart: a brace is no name, and `tagged` is neither capitalized nor followed
by a semicolon where it opens a block.
-/

namespace BluespecDocs

open Rule

variable {n : Nat} {follow : List Token → Prop}

theorem keyword_of_other_word {name other : String} (hne : other ≠ name) (x : WordLeaf other)
    (us : List Token) : keyword name (x.token :: us) = none := by
  refine keyword_of_not_isWord ?_ us
  cases hword : x.token.isWord name with
  | false => rfl
  | true => exact absurd (Token.eq_of_isWord x.isWord hword) hne

theorem keyword_of_mark {m : Mark} (name : String) (x : MarkLeaf m) (us : List Token) :
    keyword name (x.token :: us) = none := by
  refine keyword_of_not_isWord (TypeExpr.isWord_of_kind ?_ name) us
  rw [x.kind_eq]
  exact TokenKind.noConfusion

namespace TypeFormal

theorem rule_reads : Reads n follow FormalTree.tokens FormalTree.value rule := by
  have hname : ∀ numeric : Option Unit, Reads n follow
      (fun p : WordLeaf "type" × NameLeaf .lowercase => [p.1.token, p.2.token])
      (fun p => TypeFormal.mk numeric.isSome p.2.value) (do
        keyword "type"
        return TypeFormal.mk numeric.isSome (← Identifier.lowercase)) := fun numeric =>
    Reads.token_bind fun _ => (reads_token _).map (TypeFormal.mk numeric.isSome)
  have hnumeric : Reads n (fun us => True ∧ keyword "numeric" us = none) _ _ (optional (keyword "numeric")) :=
    (reads_token _).optional
  refine (hnumeric.bind hname fun p us _ => ⟨trivial, keyword_of_other_word (by decide) p.1 _⟩).of_equiv
    ⟨fun tree => (tree.numeric, tree.word, tree.name), fun p => ⟨p.1, p.2.1, p.2.2⟩, fun _ => rfl, fun _ => rfl⟩
    (fun _ => rfl) (fun tree => ?_)
  obtain ⟨numeric, word, name⟩ := tree
  cases numeric <;> rfl

theorem listRule_reads : Reads n follow FormalsTree.tokens FormalsTree.value listRule := by
  have hitem : Reads n (fun _ => True) FormalTree.tokens FormalTree.value rule := rule_reads
  have hlist : Reads n follow
      (fun p : MarkLeaf .hash × GroupTree FormalTree => p.1.token :: p.2.tokens FormalTree.tokens)
      (fun p => p.2.2.1.values FormalTree.value) listRule :=
    Reads.token_bind fun _ => hitem.parenthesized rule_shrinks (fun _ _ => trivial) (fun _ _ => trivial)
  exact hlist.of_equiv
    ⟨fun tree => (tree.hash, tree.opening, tree.items, tree.closing), fun p => ⟨p.1, p.2.1, p.2.2.1, p.2.2.2⟩,
      fun _ => rfl, fun _ => rfl⟩ (fun _ => rfl) (fun _ => rfl)

end TypeFormal

/-- The name of an element, and its value with the mark in front. -/
def ElementTree.equivParts : ElementTree ≃ NameLeaf .capitalized × Option (MarkLeaf .equals × LiteralLeaf) where
  toFun
    | plain name => (name, none)
    | assigned name equals literal => (name, some (equals, literal))
  invFun
    | (name, none) => plain name
    | (name, some (equals, literal)) => assigned name equals literal
  left_inv tree := by cases tree <;> rfl
  right_inv := by rintro ⟨name, _ | _⟩ <;> rfl

/-- An element may stand in front of anything but `=`. -/
theorem EnumElement.rule_reads :
    Reads n (Avoids [.equals]) ElementTree.tokens ElementTree.value EnumElement.rule := by
  have hvalue : ∀ name : Identifier, Reads n (Avoids [.equals])
      (optionalTokens fun p : MarkLeaf .equals × LiteralLeaf => [p.1.token, p.2.token])
      (fun p => EnumElement.mk name (p.map fun p => p.2.value)) (do
        let value ← optional do
          mark .equals
          IntLiteral.rule
        return EnumElement.mk name value) := by
    intro name
    have hassigned : Reads n (fun _ => True)
        (fun p : MarkLeaf .equals × LiteralLeaf => [p.1.token, p.2.token]) (fun p => p.2.value)
        (do mark .equals; IntLiteral.rule) := Reads.token_bind fun _ => reads_token _
    refine (hassigned.optional.map (EnumElement.mk name)).mono (Nat.le_refl n) fun us hus => ⟨trivial, ?_⟩
    rw [bind_apply, hus .equals (List.mem_singleton_self _), Option.bind_none]
  exact (Reads.token_bind hvalue).of_equiv ElementTree.equivParts
    (fun tree => by cases tree <;> rfl) (fun tree => by cases tree <;> rfl)

/-- A word that names a type is read as that type in front of anything that does not go on with it. -/
theorem TypeExpr.rule_of_word {name : String} (x : WordLeaf name) {ident : Identifier}
    (hident : Identifier.ofName? name = some ident) (hname : ident.name ≠ "function") {us : List Token}
    (hus : Ends us) : rule (x.token :: us) = some (ofName ident, us) := by
  have hread : Identifier.ofToken x.token = .ok ident :=
    Identifier.ofToken_eq_ok.mpr ⟨Token.kind_of_isWord x.isWord, by rw [x.text_eq, hident]⟩
  have hleaf : (Identifier.ofToken x.token).toOption.filter (·.name ≠ "function") = some ident :=
    Option.filter_eq_some_iff.mpr ⟨by rw [hread]; rfl, by simpa using hname⟩
  have hcomplete := (rule_reads (us.length + 2)).complete (.named none ⟨x.token, ident, hleaf⟩) us
  rw [TypeTree.tokens, TypeTree.value] at hcomplete
  exact hcomplete (Nat.lt_succ_self _) hus

/-- The parts of the two kinds of member. -/
def MemberTree.equivParts {wanted : LetterCase} : MemberTree wanted ≃
    (TypeTree × NameLeaf wanted × MarkLeaf .semicolon) ⊕ BlockTree where
  toFun
    | field type name semicolon => .inl (type, name, semicolon)
    | block inner => .inr inner
  invFun
    | .inl (type, name, semicolon) => field type name semicolon
    | .inr inner => block inner
  left_inv tree := by cases tree <;> rfl
  right_inv := by rintro (_ | _) <;> rfl

namespace Member

variable {nested : Rule Member}

/-- Reads the name of a field of the given case. -/
abbrev fieldName (wanted : LetterCase) : Rule Identifier := TokenReader.rule (Identifier.ofTokenIn wanted)

theorem fieldName_of_mark (wanted : LetterCase) {m : Mark} (x : MarkLeaf m) (us : List Token) :
    fieldName wanted (x.token :: us) = none :=
  Identifier.inCase_of_mark wanted x us

/-- A structure is not taken for a field of type `struct`: a brace is no name. -/
theorem fieldRule_of_struct (wanted : LetterCase) (word : WordLeaf "struct") (opening : MarkLeaf .leftBrace)
    (us : List Token) : fieldRule (fieldName wanted) (word.token :: opening.token :: us) = none := by
  have htype : TypeExpr.rule (word.token :: opening.token :: us) =
      some (.ofName ⟨"struct", .lowercase⟩, opening.token :: us) :=
    TypeExpr.rule_of_word word (by decide) (by decide) (TypeExpr.ends_mark (by decide) opening us)
  rw [fieldRule, bind_apply, htype, Option.bind_some, bind_apply, fieldName_of_mark, Option.bind_none]

/-- A tagged union is not taken for a field `tagged` of type `union`: no semicolon follows. -/
theorem fieldRule_of_union (wanted : LetterCase) (word : WordLeaf "union") (tagged : WordLeaf "tagged")
    (opening : MarkLeaf .leftBrace) (us : List Token) :
    fieldRule (fieldName wanted) (word.token :: tagged.token :: opening.token :: us) = none := by
  have hends : TypeExpr.Ends (tagged.token :: opening.token :: us) :=
    avoids_of_word (Token.kind_of_isWord tagged.isWord) _ _
  have htype : TypeExpr.rule (word.token :: tagged.token :: opening.token :: us) =
      some (.ofName ⟨"union", .lowercase⟩, tagged.token :: opening.token :: us) :=
    TypeExpr.rule_of_word word (by decide) (by decide) hends
  rw [fieldRule, bind_apply, htype, Option.bind_some, bind_apply]
  change ((Identifier.ofTokenIn wanted tagged.token).toOption.map _).bind _ = none
  cases (Identifier.ofTokenIn wanted tagged.token).toOption with
  | none => rfl
  | some name =>
      have hsemicolon : mark .semicolon (opening.token :: us) = none :=
        avoids_of_mark opening (by decide : Mark.leftBrace ∉ [Mark.semicolon]) us _ (List.mem_singleton_self _)
      rw [Option.map_some, Option.bind_some, bind_apply, hsemicolon, Option.bind_none]

theorem fieldRule_of_block (wanted : LetterCase) (block : BlockTree) (us : List Token) :
    fieldRule (fieldName wanted) (MemberTree.blockTokens block ++ us) = none := by
  cases block with
  | struct word opening =>
      rw [MemberTree.blockTokens]
      exact fieldRule_of_struct wanted word opening _
  | union word tagged opening =>
      rw [MemberTree.blockTokens]
      exact fieldRule_of_union wanted word tagged opening _

theorem fieldRule_reads (wanted : LetterCase) :
    Reads n follow (fun p : TypeTree × NameLeaf wanted × MarkLeaf .semicolon =>
        p.1.tokens ++ [p.2.1.token, p.2.2.token])
      (fun p => .field p.1.value p.2.1.value) (fieldRule (fieldName wanted)) := by
  have hname : ∀ type : TypeExpr, Reads n follow
      (fun p : NameLeaf wanted × MarkLeaf .semicolon => [p.1.token, p.2.token])
      (fun p => field type p.1.value) (do
        let name ← fieldName wanted
        mark .semicolon
        return field type name) := fun type =>
    Reads.token_bind fun name => (reads_token _).map fun _ => field type name
  exact (TypeExpr.rule_reads n).bind hname fun p us _ => TypeExpr.ends_name p.1 _

theorem item_reads (wanted : LetterCase)
    (h : Reads n follow MemberTree.blockTokens MemberTree.blockValue nested) :
    Reads n follow (@MemberTree.tokens wanted) MemberTree.value (fieldRule (fieldName wanted) <|> nested) := by
  have hsum := (fieldRule_reads wanted).orElse h fun block us _ => fieldRule_of_block wanted block us
  refine hsum.of_equiv MemberTree.equivParts (fun member => ?_) (fun member => ?_)
  · cases member with
    | field type name semicolon =>
        rw [MemberTree.tokens]
        rfl
    | block inner =>
        rw [MemberTree.tokens]
        rfl
  · cases member with
    | field type name semicolon =>
        rw [MemberTree.value]
        rfl
    | block inner =>
        rw [MemberTree.value]
        rfl

end Member

/-- One or more members in braces. -/
abbrev BracedTree (wanted : LetterCase) :=
  MarkLeaf .leftBrace × (MemberTree wanted × List (MemberTree wanted)) × MarkLeaf .rightBrace

namespace BracedTree

variable {wanted : LetterCase}

def tokens (tree : BracedTree wanted) : List Token :=
  tree.1.token :: ((tree.2.1.1.tokens ++ tree.2.1.2.flatMap MemberTree.tokens) ++ [tree.2.2.token])

def value (tree : BracedTree wanted) : List Member :=
  tree.2.1.1.value :: tree.2.1.2.map MemberTree.value

end BracedTree

namespace Member

variable {nested : Rule Member}

theorem block_reads (wanted : LetterCase) (hs : Shrinks nested)
    (hstart : StartsWith ["union", "struct"] nested)
    (h : Reads n (fun _ => True) MemberTree.blockTokens MemberTree.blockValue nested) :
    Reads n follow (@BracedTree.tokens wanted) BracedTree.value (block (fieldName wanted) nested) := by
  have hname : PlainOver Token.isTypePart (fieldName wanted) :=
    fun _ hR => Identifier.ofTokenIn_parallel hR wanted
  have hitems := (item_reads wanted h).atLeastOne (item_shrinks (TokenReader.rule_shrinks _).keeps hs)
    fun _ _ => trivial
  refine (hitems.between .leftBrace .rightBrace fun c us => ⟨trivial, ?_⟩).mono (Nat.le_succ n) fun _ hus => hus
  exact item_of_rightBrace hname hstart c.token us (Option.ite_none_right_eq_some.mp c.reads).1

theorem structBlock_reads (hs : Shrinks nested) (hstart : StartsWith ["union", "struct"] nested)
    (h : Reads n (fun _ => True) MemberTree.blockTokens MemberTree.blockValue nested) :
    Reads (n + 1) follow (fun p : WordLeaf "struct" × BracedTree .lowercase => p.1.token :: p.2.tokens)
      (fun p => p.2.value) (structBlock nested) :=
  Reads.after_token fun _ => block_reads .lowercase hs hstart h

theorem unionBlock_reads (hs : Shrinks nested) (hstart : StartsWith ["union", "struct"] nested)
    (h : Reads n (fun _ => True) MemberTree.blockTokens MemberTree.blockValue nested) :
    Reads (n + 1) follow (fun p : WordLeaf "union" × WordLeaf "tagged" × BracedTree .capitalized =>
        p.1.token :: p.2.1.token :: p.2.2.tokens)
      (fun p => p.2.2.value) (unionBlock nested) :=
  Reads.after_token fun _ => Reads.token_bind fun _ => block_reads .capitalized hs hstart h

theorem tagRule_reads :
    Reads n follow (fun p : NameLeaf .capitalized × MarkLeaf .semicolon => [p.1.token, p.2.token])
      (fun p => p.1.value) tagRule :=
  Reads.token_bind fun tag => (reads_token _).map fun _ => tag

theorem taggedStruct_reads (hs : Shrinks nested) (hstart : StartsWith ["union", "struct"] nested)
    (h : Reads n (fun _ => True) MemberTree.blockTokens MemberTree.blockValue nested) :
    Reads (n + 1) follow
      (fun p : (WordLeaf "struct" × BracedTree .lowercase) × NameLeaf .capitalized × MarkLeaf .semicolon =>
        (p.1.1.token :: p.1.2.tokens) ++ [p.2.1.token, p.2.2.token])
      (fun p => .struct p.1.2.value p.2.1.value) (taggedStruct nested) := by
  have hblock : Reads (n + 1) (fun _ => True) _ _ (structBlock nested) := structBlock_reads hs hstart h
  exact hblock.bind (fun members => tagRule_reads.map (struct members)) fun _ _ _ => trivial

theorem taggedUnion_reads (hs : Shrinks nested) (hstart : StartsWith ["union", "struct"] nested)
    (h : Reads n (fun _ => True) MemberTree.blockTokens MemberTree.blockValue nested) :
    Reads (n + 1) follow
      (fun p : (WordLeaf "union" × WordLeaf "tagged" × BracedTree .capitalized) ×
          NameLeaf .capitalized × MarkLeaf .semicolon =>
        (p.1.1.token :: p.1.2.1.token :: p.1.2.2.tokens) ++ [p.2.1.token, p.2.2.token])
      (fun p => .union p.1.2.2.value p.2.1.value) (taggedUnion nested) := by
  have hblock : Reads (n + 1) (fun _ => True) _ _ (unionBlock nested) := unionBlock_reads hs hstart h
  exact hblock.bind (fun members => tagRule_reads.map (union members)) fun _ _ _ => trivial

theorem taggedUnion_of_struct (word : WordLeaf "struct") (us : List Token) :
    taggedUnion nested (word.token :: us) = none := by
  rw [taggedUnion, bind_apply, unionBlock, bind_apply, keyword_of_other_word (by decide) word,
    Option.bind_none, Option.bind_none]

end Member

/-- The parts of the two kinds of block. -/
def BlockTree.equivParts : BlockTree ≃
    ((WordLeaf "union" × WordLeaf "tagged" × BracedTree .capitalized) ×
      NameLeaf .capitalized × MarkLeaf .semicolon) ⊕
    ((WordLeaf "struct" × BracedTree .lowercase) × NameLeaf .capitalized × MarkLeaf .semicolon) where
  toFun
    | struct word opening first others closing tag semicolon =>
      .inr ((word, opening, (first, others), closing), tag, semicolon)
    | union word tagged opening first others closing tag semicolon =>
      .inl ((word, tagged, opening, (first, others), closing), tag, semicolon)
  invFun
    | .inr ((word, opening, (first, others), closing), tag, semicolon) =>
      struct word opening first others closing tag semicolon
    | .inl ((word, tagged, opening, (first, others), closing), tag, semicolon) =>
      union word tagged opening first others closing tag semicolon
  left_inv tree := by cases tree <;> rfl
  right_inv := by rintro (_ | _) <;> rfl

namespace Member

/-- One level of the grammar of blocks. -/
theorem level_reads (h : Reads n (fun _ => True) MemberTree.blockTokens MemberTree.blockValue nestedRule) :
    Reads (n + 1) (fun _ => True) MemberTree.blockTokens MemberTree.blockValue
      (taggedUnion nestedRule <|> taggedStruct nestedRule) := by
  have hsum := (taggedUnion_reads nestedRule_shrinks nestedRule_startsWith h).orElse
    (taggedStruct_reads nestedRule_shrinks nestedRule_startsWith h)
    fun p us (_ : True) => taggedUnion_of_struct p.1.1 _
  refine hsum.of_equiv BlockTree.equivParts (fun block => ?_) (fun block => ?_)
  · cases block with
    | struct word opening first others closing tag semicolon =>
        rw [MemberTree.blockTokens, MemberTree.fieldsTokens_eq]
        change _ = word.token :: opening.token :: (((_ ++ _) ++ [_]) ++ _)
        rw [List.append_assoc, List.append_assoc]
        rfl
    | union word tagged opening first others closing tag semicolon =>
        rw [MemberTree.blockTokens, MemberTree.casesTokens_eq]
        change _ = word.token :: tagged.token :: opening.token :: (((_ ++ _) ++ [_]) ++ _)
        rw [List.append_assoc, List.append_assoc]
        rfl
  · cases block with
    | struct word opening first others closing tag semicolon =>
        rw [MemberTree.blockValue, MemberTree.fieldsValues_eq]
        rfl
    | union word tagged opening first others closing tag semicolon =>
        rw [MemberTree.blockValue, MemberTree.casesValues_eq]
        rfl

theorem nestedRule_reads (n : Nat) :
    Reads n (fun _ => True) MemberTree.blockTokens MemberTree.blockValue nestedRule := by
  induction n with
  | zero => exact reads_zero
  | succ n ih => exact (level_reads ih).congr nestedRule_eq

end Member

namespace Typedef

/-- A defined name may stand in front of anything but a list of formals. -/
theorem target_reads : Reads n (Avoids [.hash]) TargetTree.tokens TargetTree.value target := by
  have hformals : ∀ name : Identifier, Reads n (Avoids [.hash]) (optionalTokens FormalsTree.tokens)
      (fun formals => (name, formals.map FormalsTree.value))
      (do return (name, ← optional TypeFormal.listRule)) := by
    intro name
    have hlist : Reads n (fun _ => True) FormalsTree.tokens FormalsTree.value TypeFormal.listRule :=
      TypeFormal.listRule_reads
    refine (hlist.optional.map (name, ·)).mono (Nat.le_refl n) fun us hus => ⟨trivial, ?_⟩
    rw [TypeFormal.listRule, bind_apply, hus .hash (List.mem_singleton_self _), Option.bind_none]
  exact (Reads.token_bind hformals).of_equiv
    ⟨fun tree => (tree.name, tree.formals), fun p => ⟨p.1, p.2⟩, fun _ => rfl, fun _ => rfl⟩
    (fun _ => rfl) (fun _ => rfl)

theorem derivingRule_reads : Reads n (fun us => keyword "deriving" us = none)
    (optionalTokens DerivingTree.tokens) (fun tree => tree.elim [] DerivingTree.value) derivingRule := by
  have hclass : Reads n (fun _ => True) (fun x : NameLeaf .capitalized => [x.token]) Leaf.value
      Identifier.capitalized := reads_token _
  have hclasses : Reads n (fun _ => True)
      (fun p : WordLeaf "deriving" × GroupTree (NameLeaf .capitalized) =>
        p.1.token :: p.2.tokens fun x => [x.token])
      (fun p => p.2.2.1.values Leaf.value)
      (do keyword "deriving"; parenthesized Identifier.capitalized) :=
    Reads.token_bind fun _ => hclass.parenthesized Identifier.capitalized_shrinks (fun _ _ => trivial)
      (fun _ _ => trivial)
  have htree : Reads n (fun _ => True) DerivingTree.tokens DerivingTree.value
      (do keyword "deriving"; parenthesized Identifier.capitalized) :=
    hclasses.of_equiv
      ⟨fun tree => (tree.word, tree.opening, tree.classes, tree.closing),
        fun p => ⟨p.1, p.2.1, p.2.2.1, p.2.2.2⟩, fun _ => rfl, fun _ => rfl⟩ (fun _ => rfl) (fun _ => rfl)
  refine (htree.orElse_pure []).mono (Nat.le_refl n) fun us hus => ⟨trivial, ?_⟩
  rw [bind_apply, hus, Option.bind_none]

theorem enumBody_startsWith : StartsWith ["enum"] enumBody := (startsWith_keyword _).bind _

theorem structBody_startsWith : StartsWith ["struct"] structBody := ((startsWith_keyword _).bind _).bind _

theorem unionBody_startsWith : StartsWith ["union"] unionBody := ((startsWith_keyword _).bind _).bind _

/-- What stands behind the body of a definition. -/
theorem ending_reads (body : TypedefBody) : Reads n follow EndingTree.tokens (EndingTree.value body) (do
      let (name, formals) ← target
      let derived ← derivingRule
      mark .semicolon
      return ⟨name, formals, body, derived⟩) := by
  have hclasses := fun defined : Identifier × Option (List TypeFormal) =>
    (@derivingRule_reads n).bind (fun derived => reads_mark_return .semicolon
      (Typedef.mk defined.1 defined.2 body derived)) fun x us (_ : follow us) => keyword_of_mark "deriving" x us
  refine (target_reads.bind hclasses fun p us _ => ?_).of_equiv
    ⟨fun tree => (tree.target, tree.classes, tree.semicolon), fun p => ⟨p.1, p.2.1, p.2.2⟩, fun _ => rfl,
      fun _ => rfl⟩ (fun _ => rfl) (fun _ => rfl)
  -- A `deriving` clause or a semicolon comes next, and neither is a list of formals.
  obtain ⟨classes, semicolon⟩ := p
  cases classes with
  | none => exact avoids_of_mark semicolon (by decide) us
  | some classes => exact avoids_of_word (Token.kind_of_isWord classes.word.isWord) _ _

theorem withBody_reads {τ : Type} {tokens : τ → List Token} {value : τ → TypedefBody}
    {bodyRule : Rule TypedefBody} (h : Reads n (fun _ => True) tokens value bodyRule) :
    Reads n follow (fun p : τ × EndingTree => tokens p.1 ++ p.2.tokens) (fun p => p.2.value (value p.1))
      (withBody bodyRule) :=
  h.bind ending_reads fun _ _ _ => trivial

theorem enumBody_reads :
    Reads n follow (fun p : WordLeaf "enum" × MarkLeaf .leftBrace × Separated ElementTree × MarkLeaf .rightBrace =>
        p.1.token :: p.2.1.token :: (p.2.2.1.tokens ElementTree.tokens ++ [p.2.2.2.token]))
      (fun p => .enum (p.2.2.1.values ElementTree.value)) enumBody := by
  have hitems : Reads n (fun us => Avoids [.equals] us ∧ mark .comma us = none) _ _
      (commaSeparated EnumElement.rule) :=
    EnumElement.rule_reads.commaSeparated EnumElement.rule_shrinks fun x us => avoids_of_mark x (by decide) us
  have hbraced : Reads (n + 1) follow _ _ (between .leftBrace .rightBrace (commaSeparated EnumElement.rule)) :=
    hitems.between .leftBrace .rightBrace fun c us => ⟨avoids_of_mark c (by decide) us,
      avoids_of_mark c (by decide : Mark.rightBrace ∉ [Mark.comma]) us _ (List.mem_singleton_self _)⟩
  exact Reads.token_bind fun _ => (hbraced.map TypedefBody.enum).mono (Nat.le_succ n) fun _ hus => hus

theorem structBody_reads :
    Reads n follow (fun p : WordLeaf "struct" × BracedTree .lowercase => p.1.token :: p.2.tokens)
      (fun p => .struct p.2.value) structBody :=
  ((Member.structBlock_reads Member.nestedRule_shrinks Member.nestedRule_startsWith
    (Member.nestedRule_reads n)).map TypedefBody.struct).mono (Nat.le_succ n) fun _ hus => hus

theorem unionBody_reads :
    Reads n follow (fun p : WordLeaf "union" × WordLeaf "tagged" × BracedTree .capitalized =>
        p.1.token :: p.2.1.token :: p.2.2.tokens)
      (fun p => .taggedUnion p.2.2.value) unionBody :=
  ((Member.unionBlock_reads Member.nestedRule_shrinks Member.nestedRule_startsWith
    (Member.nestedRule_reads n)).map TypedefBody.taggedUnion).mono (Nat.le_succ n) fun _ hus => hus

theorem synonymRule_reads :
    Reads n follow (fun p : TypeTree × TargetTree × MarkLeaf .semicolon =>
        p.1.tokens ++ (p.2.1.tokens ++ [p.2.2.token]))
      (fun p => ⟨p.2.1.value.1, p.2.1.value.2, .synonym p.1.value, []⟩) synonymRule := by
  have htarget : ∀ type : TypeExpr, Reads n follow
      (fun p : TargetTree × MarkLeaf .semicolon => p.1.tokens ++ [p.2.token])
      (fun p => Typedef.mk p.1.value.1 p.1.value.2 (.synonym type) []) (do
        let (name, formals) ← target
        mark .semicolon
        return ⟨name, formals, .synonym type, []⟩) := fun type =>
    target_reads.bind (fun defined => reads_mark_return .semicolon
      (Typedef.mk defined.1 defined.2 (.synonym type) [])) fun x us _ => avoids_of_mark x (by decide) us
  exact (TypeExpr.rule_reads n).bind htarget fun p us _ => TypeExpr.ends_name p.1.name _

/-- Where a word that names a type is followed by no defined name, there is no alias. -/
theorem synonymRule_of_word {name : String} (x : WordLeaf name) {ident : Identifier}
    (hident : Identifier.ofName? name = some ident) (hname : ident.name ≠ "function") {us : List Token}
    (hus : TypeExpr.Ends us) (htarget : Identifier.capitalized us = none) : synonymRule (x.token :: us) = none := by
  rw [synonymRule, bind_apply, TypeExpr.rule_of_word x hident hname hus, Option.bind_some, bind_apply, target,
    bind_apply, htarget, Option.bind_none, Option.bind_none]

theorem synonymRule_of_brace {name : String} (x : WordLeaf name) {ident : Identifier}
    (hident : Identifier.ofName? name = some ident) (hname : ident.name ≠ "function")
    (opening : MarkLeaf .leftBrace) (us : List Token) : synonymRule (x.token :: opening.token :: us) = none :=
  synonymRule_of_word x hident hname (TypeExpr.ends_mark (by decide) opening us)
    (Member.fieldName_of_mark .capitalized opening us)

theorem synonymRule_of_enum (word : WordLeaf "enum") (opening : MarkLeaf .leftBrace) (us : List Token) :
    synonymRule (word.token :: opening.token :: us) = none :=
  synonymRule_of_brace word (by decide : _ = some ⟨"enum", .lowercase⟩) (by decide) opening us

theorem synonymRule_of_struct (word : WordLeaf "struct") (opening : MarkLeaf .leftBrace) (us : List Token) :
    synonymRule (word.token :: opening.token :: us) = none :=
  synonymRule_of_brace word (by decide : _ = some ⟨"struct", .lowercase⟩) (by decide) opening us

theorem synonymRule_of_union (word : WordLeaf "union") (tagged : WordLeaf "tagged") (us : List Token) :
    synonymRule (word.token :: tagged.token :: us) = none := by
  have hends : TypeExpr.Ends (tagged.token :: us) := avoids_of_word (Token.kind_of_isWord tagged.isWord) _ _
  refine synonymRule_of_word word (by decide : _ = some ⟨"union", .lowercase⟩) (by decide) hends ?_
  change (Identifier.ofTokenIn .capitalized tagged.token).toOption.map _ = none
  cases hread : Identifier.ofTokenIn .capitalized tagged.token with
  | error e => rfl
  | ok ident =>
      obtain ⟨hident, hcase⟩ := Identifier.ofTokenIn_eq_ok.mp hread
      have hname := (Identifier.ofToken_eq_ok.mp hident).2
      rw [tagged.text_eq] at hname
      obtain rfl : ⟨"tagged", .lowercase⟩ = ident := Option.some.inj hname
      cases hcase

end Typedef

/-- The parts of the four kinds of definition. -/
def TypedefTree.equivParts : TypedefTree ≃ WordLeaf "typedef" ×
    ((TypeTree × TargetTree × MarkLeaf .semicolon) ⊕
      ((WordLeaf "enum" × MarkLeaf .leftBrace × Separated ElementTree × MarkLeaf .rightBrace) × EndingTree) ⊕
      ((WordLeaf "struct" × BracedTree .lowercase) × EndingTree) ⊕
      ((WordLeaf "union" × WordLeaf "tagged" × BracedTree .capitalized) × EndingTree)) where
  toFun
    | synonym word type target semicolon => (word, .inl (type, target, semicolon))
    | enum word kind opening elements closing ending =>
      (word, .inr (.inl ((kind, opening, elements, closing), ending)))
    | struct word kind opening first others closing ending =>
      (word, .inr (.inr (.inl ((kind, opening, (first, others), closing), ending))))
    | union word kind tagged opening first others closing ending =>
      (word, .inr (.inr (.inr ((kind, tagged, opening, (first, others), closing), ending))))
  invFun
    | (word, .inl (type, target, semicolon)) => synonym word type target semicolon
    | (word, .inr (.inl ((kind, opening, elements, closing), ending))) =>
      enum word kind opening elements closing ending
    | (word, .inr (.inr (.inl ((kind, opening, (first, others), closing), ending)))) =>
      struct word kind opening first others closing ending
    | (word, .inr (.inr (.inr ((kind, tagged, opening, (first, others), closing), ending)))) =>
      union word kind tagged opening first others closing ending
  left_inv tree := by cases tree <;> rfl
  right_inv := by rintro ⟨_, _ | _ | _ | _⟩ <;> rfl

namespace Typedef

theorem withBody_of_other_word {name other : String} (hne : other ≠ name) {bodyRule : Rule TypedefBody}
    (hbody : StartsWith [name] bodyRule) (x : WordLeaf other) (us : List Token) :
    withBody bodyRule (x.token :: us) = none := by
  have hother : keyword other (x.token :: us) = some ((), us) :=
    tokenThat_eq_some.mpr ⟨x.token, rfl, x.isWord⟩
  exact (hbody.bind _).eq_none (startsWith_keyword other) (by simpa using hne.symm) hother

theorem rule_reads : Reads n follow TypedefTree.tokens TypedefTree.value rule := by
  have henum : Reads n follow _ _ (withBody enumBody) := withBody_reads enumBody_reads
  have hstruct : Reads n follow _ _ (withBody structBody) := withBody_reads structBody_reads
  have hunion : Reads n follow _ _ (withBody unionBody) := withBody_reads unionBody_reads
  have hblocks := hstruct.orElse hunion fun p us _ =>
    withBody_of_other_word (by decide) structBody_startsWith p.1.1 _
  have hbodies := henum.orElse hblocks fun p us _ => by
    rcases p with p | p
    · exact withBody_of_other_word (by decide) enumBody_startsWith p.1.1 _
    · exact withBody_of_other_word (by decide) enumBody_startsWith p.1.1 _
  have hall := synonymRule_reads.orElse hbodies fun p us _ => by
    rcases p with p | p | p
    · exact synonymRule_of_enum p.1.1 p.1.2.1 _
    · exact synonymRule_of_struct p.1.1 p.1.2.1 _
    · exact synonymRule_of_union p.1.1 p.1.2.1 _
  refine (Reads.token_bind fun _ => hall).of_equiv TypedefTree.equivParts (fun tree => ?_) (fun tree => ?_)
  · cases tree with
    | synonym word type target semicolon => rfl
    | enum word kind opening elements closing ending =>
        change _ = word.token :: kind.token :: opening.token :: ((_ ++ [_]) ++ _)
        rw [List.append_assoc]
        rfl
    | struct word kind opening first others closing ending =>
        change _ = word.token :: kind.token :: opening.token :: (((_ ++ _) ++ [_]) ++ _)
        rw [List.append_assoc, List.append_assoc]
        rfl
    | union word kind tagged opening first others closing ending =>
        change _ = word.token :: kind.token :: tagged.token :: opening.token :: (((_ ++ _) ++ [_]) ++ _)
        rw [List.append_assoc, List.append_assoc]
        rfl
  · cases tree <;> rfl

end Typedef

end BluespecDocs
