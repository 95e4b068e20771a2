import BluespecDocs.Proofs.GrammarReading
import BluespecDocs.Proofs.TypeRules

/-!
The rule for types reads the grammar of types. A type name alone would read on at `#` and `::`, so a type may
stand in front of anything but these two marks. Nothing in the grammar puts one of them behind a type.
-/

namespace BluespecDocs

open Rule

variable {n : Nat} {follow : List Token → Prop}

theorem TokenReader.eq_ok_of_toOption {α : Type} {read : TokenReader α} {t : Token} {a : α}
    (h : (read t).toOption = some a) : read t = .ok a := by
  cases hread : read t with
  | error e =>
      rw [hread] at h
      cases h
  | ok b =>
      rw [hread] at h
      cases h
      rfl

theorem AnyNameLeaf.kind_eq (x : AnyNameLeaf) : x.token.kind = .word :=
  (Identifier.ofToken_eq_ok.mp (TokenReader.eq_ok_of_toOption x.reads)).1

theorem NameLeaf.ofToken_eq {wanted : LetterCase} (x : NameLeaf wanted) :
    Identifier.ofToken x.token = .ok x.value ∧ x.value.letterCase = wanted :=
  Identifier.ofTokenIn_eq_ok.mp (TokenReader.eq_ok_of_toOption x.reads)

theorem NameLeaf.kind_eq {wanted : LetterCase} (x : NameLeaf wanted) : x.token.kind = .word :=
  (Identifier.ofToken_eq_ok.mp x.ofToken_eq.1).1

theorem TypeNameLeaf.ofToken_eq (x : TypeNameLeaf) :
    Identifier.ofToken x.token = .ok x.value ∧ x.value.name ≠ "function" := by
  obtain ⟨hread, hname⟩ := Option.filter_eq_some_iff.mp x.reads
  exact ⟨TokenReader.eq_ok_of_toOption hread, of_decide_eq_true hname⟩

theorem LiteralLeaf.kind_ne (x : LiteralLeaf) : x.token.kind ≠ .word := by
  intro hkind
  have hread := x.reads
  rw [IntLiteral.ofToken, hkind] at hread
  cases hread

namespace Identifier

theorem name_of_ofToken {t : Token} {ident : Identifier} (h : ofToken t = .ok ident) :
    t.text = ident.name := by
  obtain ⟨-, hname⟩ := ofToken_eq_ok.mp h
  obtain ⟨letterCase, -, rfl⟩ := Option.map_eq_some_iff.mp hname
  rfl

theorem any_of_kind {t : Token} (h : t.kind ≠ .word) (us : List Token) : any (t :: us) = none := by
  change ((ofToken t).toOption).map _ = none
  cases hread : ofToken t with
  | ok ident => exact absurd (ofToken_eq_ok.mp hread).1 h
  | error e => rfl

theorem inCase_of_mark (wanted : LetterCase) {m : Mark} (x : MarkLeaf m) (us : List Token) :
    TokenReader.rule (ofTokenIn wanted) (x.token :: us) = none := by
  change (ofTokenIn wanted x.token).toOption.map _ = none
  cases hread : ofTokenIn wanted x.token with
  | error e => rfl
  | ok ident =>
      have hkind := (ofToken_eq_ok.mp (ofTokenIn_eq_ok.mp hread).1).1
      rw [x.kind_eq] at hkind
      cases hkind

theorem lowercase_of_mark {m : Mark} (x : MarkLeaf m) (us : List Token) : lowercase (x.token :: us) = none :=
  inCase_of_mark .lowercase x us

theorem lowercase_leaf (x : NameLeaf .lowercase) (us : List Token) :
    lowercase (x.token :: us) = some (x.value, us) :=
  token_eq_some.mpr ⟨x, rfl, rfl⟩

end Identifier

namespace TypeExpr

/-- What may stand behind a type. -/
abbrev Ends : List Token → Prop := Avoids [.hash, .doubleColon]

theorem rule_eq (ts : List Token) :
    rule ts = (functionType rule <|> namedType rule <|> numericType) ts := descends.recursive_eq ts

theorem qualifier_reads : Reads n follow QualifierTree.tokens QualifierTree.value qualifier :=
  (Reads.token_bind fun package => reads_mark_return .doubleColon package).of_equiv
    ⟨fun tree => (tree.package, tree.colons), fun p => ⟨p.1, p.2⟩, fun _ => rfl, fun _ => rfl⟩
    (fun _ => rfl) (fun _ => rfl)

theorem typeName_eq (ts : List Token) : typeName ts =
    token (fun t => (Identifier.ofToken t).toOption.filter (·.name ≠ "function")) ts := by
  cases ts with
  | nil => rfl
  | cons t ts =>
      rw [token_cons]
      change (((Identifier.ofToken t).toOption.map (·, ts)).bind fun found =>
        (if found.1.name = "function" then failure else pure found.1 : Rule Identifier) found.2) = _
      cases (Identifier.ofToken t).toOption with
      | none => rfl
      | some ident =>
          rw [Option.map_some, Option.bind_some]
          by_cases hname : ident.name = "function"
          · rw [if_pos hname, Option.filter_some_neg (by simpa using hname)]
            rfl
          · rw [if_neg hname, Option.filter_some_pos (by simpa using hname)]
            rfl

theorem qualifier_of_kind {t : Token} (h : t.kind ≠ .word) (us : List Token) : qualifier (t :: us) = none := by
  rw [qualifier, bind_apply, Identifier.any_of_kind h, Option.bind_none]

/-- A type name in front of anything but `::` is no package. -/
theorem qualifier_of_mark_eq_none {us : List Token} (h : mark .doubleColon us = none) (t : Token) :
    qualifier (t :: us) = none := by
  rw [qualifier, bind_apply]
  change (((Identifier.ofToken t).toOption.map (·, us)).bind _) = none
  cases (Identifier.ofToken t).toOption with
  | none => rfl
  | some ident =>
      rw [Option.map_some, Option.bind_some, bind_apply, h, Option.bind_none]

theorem namedType_of_kind (type : Rule TypeExpr) {t : Token} (h : t.kind ≠ .word) (us : List Token) :
    namedType type (t :: us) = none := by
  rw [namedType, bind_apply, optional_apply, qualifier_of_kind h, Option.map_none, Option.none_or,
    Option.bind_some, bind_apply, typeName, bind_apply, Identifier.any_of_kind h, Option.bind_none,
    Option.bind_none]

theorem numericType_of_mark {t : Token} {m : Mark} (h : t.kind = .mark m) (us : List Token) :
    numericType (t :: us) = none := by
  change (((IntLiteral.ofToken t).toOption.map (·, us)).bind _) = none
  rw [IntLiteral.ofToken, h]
  rfl

theorem functionType_of_not_isWord (type : Rule TypeExpr) {t : Token} (h : t.isWord "function" = false)
    (us : List Token) : functionType type (t :: us) = none := by
  rw [functionType, bind_apply, keyword_of_not_isWord h, Option.bind_none]

theorem isWord_of_kind {t : Token} (h : t.kind ≠ .word) (name : String) : t.isWord name = false := by
  rw [Token.isWord, beq_eq_false_iff_ne.mpr h, Bool.false_and]

/-- No type starts with a punctuation mark. -/
theorem rule_of_mark {t : Token} {m : Mark} (h : t.kind = .mark m) (us : List Token) :
    rule (t :: us) = none := by
  have hword : t.kind ≠ .word := by
    rw [h]
    exact TokenKind.noConfusion
  rw [rule_eq, orElse_apply, orElse_apply, functionType_of_not_isWord rule (isWord_of_kind hword _),
    namedType_of_kind rule hword, numericType_of_mark h]
  rfl

end TypeExpr

/-- Items in parentheses. -/
abbrev GroupTree (τ : Type) := MarkLeaf .leftParen × Separated τ × MarkLeaf .rightParen

namespace GroupTree

variable {τ : Type}

def tokens (itemTokens : τ → List Token) (tree : GroupTree τ) : List Token :=
  tree.1.token :: (tree.2.1.tokens itemTokens ++ [tree.2.2.token])

end GroupTree

/-- Items that may stand in front of a comma and of a closing parenthesis are read in parentheses. -/
theorem Rule.Reads.parenthesized {α τ : Type} {tokens : τ → List Token} {value : τ → α} {r : Rule α}
    {inner : List Token → Prop} (hr : Reads n inner tokens value r) (hs : Shrinks r)
    (hcomma : ∀ (x : MarkLeaf .comma) us, inner (x.token :: us))
    (hclosing : ∀ (x : MarkLeaf .rightParen) us, inner (x.token :: us)) :
    Reads n follow (GroupTree.tokens tokens) (fun tree => tree.2.1.values value) (parenthesized r) := by
  have hitems := hr.commaSeparated hs hcomma
  refine (hitems.between .leftParen .rightParen fun c us => ⟨hclosing c us, ?_⟩).mono (Nat.le_succ n)
    fun _ hus => hus
  exact avoids_of_mark c (by decide : Mark.rightParen ∉ [Mark.comma]) us .comma (List.mem_singleton_self _)

/-- The parts of a parameter. -/
def ParamTree.equivParts : ParamTree ≃ TypeTree × NameLeaf .lowercase where
  toFun
    | mk type name => (type, name)
  invFun parts := mk parts.1 parts.2
  left_inv tree := by cases tree; rfl
  right_inv _ := rfl

namespace TypeExpr

/-- A type may stand in front of a mark that is not one of the two that go on with it. -/
theorem ends_mark {m : Mark} (hm : m ∉ [Mark.hash, .doubleColon]) (x : MarkLeaf m) (us : List Token) :
    Ends (x.token :: us) := avoids_of_mark x hm us

theorem ends_name {wanted : LetterCase} (x : NameLeaf wanted) (us : List Token) : Ends (x.token :: us) :=
  avoids_of_word x.kind_eq _ us

variable {type : Rule TypeExpr}

theorem param_reads (h : Reads n Ends TypeTree.tokens TypeTree.value type) :
    Reads n follow TypeTree.paramTokens TypeTree.paramValue (do
      let param ← type
      let _ ← Identifier.lowercase
      return param) := by
  have hname : ∀ param : TypeExpr, Reads n follow (fun x : NameLeaf .lowercase => [x.token]) (fun _ => param)
      (do let _ ← Identifier.lowercase; return param) := fun param => (reads_token _).map fun _ => param
  refine (h.bind hname fun x us _ => ends_name x us).of_equiv ParamTree.equivParts ?_ ?_
  · rintro ⟨type, name⟩
    rw [TypeTree.paramTokens]
    rfl
  · rintro ⟨type, name⟩
    rw [TypeTree.paramValue]
    rfl

theorem typeArgs_reads (h : Reads n Ends TypeTree.tokens TypeTree.value type) (hs : Shrinks type) :
    Reads n follow (fun p : MarkLeaf .hash × GroupTree TypeTree => p.1.token :: p.2.tokens TypeTree.tokens)
      (fun p => p.2.2.1.values TypeTree.value) (typeArgs type) :=
  Reads.token_bind fun _ => h.parenthesized hs (ends_mark (by decide)) (ends_mark (by decide))

theorem functionType_reads (h : Reads n Ends TypeTree.tokens TypeTree.value type) (hs : Shrinks type) :
    Reads (n + 1) follow (fun p : WordLeaf "function" × TypeTree × NameLeaf .lowercase × GroupTree ParamTree =>
        p.1.token :: (p.2.1.tokens ++ p.2.2.1.token :: p.2.2.2.tokens TypeTree.paramTokens))
      (fun p => .function p.2.1.value p.2.2.1.value (p.2.2.2.2.1.values TypeTree.paramValue))
      (functionType type) := by
  have hparam : Reads n (fun _ => True) TypeTree.paramTokens TypeTree.paramValue (do
      let param ← type
      let _ ← Identifier.lowercase
      return param) := param_reads h
  have hparams : Reads n follow (GroupTree.tokens TypeTree.paramTokens) _ _ :=
    hparam.parenthesized (hs.bind fun _ => Identifier.lowercase_shrinks.keeps.bind fun _ => keeps_pure _)
      (fun _ _ => trivial) (fun _ _ => trivial)
  exact Reads.after_token fun _ => h.bind (fun result => Reads.token_bind fun name =>
    hparams.map (function result name ·)) fun p us _ => ends_name p.1 _

theorem namedType_reads (h : Reads n Ends TypeTree.tokens TypeTree.value type) (hs : Shrinks type) :
    Reads (n + 1) Ends (fun p : Option QualifierTree × TypeNameLeaf × Option (MarkLeaf .hash × GroupTree TypeTree) =>
        optionalTokens QualifierTree.tokens p.1 ++ p.2.1.token ::
          optionalTokens (fun args => args.1.token :: args.2.tokens TypeTree.tokens) p.2.2)
      (fun p => .named (p.1.map QualifierTree.value) p.2.1.value
        (p.2.2.elim [] fun args => args.2.2.1.values TypeTree.value))
      (namedType type) := by
  have hargs : ∀ package name, Reads n Ends
      (optionalTokens fun args : MarkLeaf .hash × GroupTree TypeTree => args.1.token :: args.2.tokens TypeTree.tokens)
      (fun args => .named package name (args.elim [] fun args => args.2.2.1.values TypeTree.value))
      (do return named package name (← orEmpty (typeArgs type))) := by
    intro package name
    have hsome : Reads n (fun _ => True) _ _ (typeArgs type) := typeArgs_reads h hs
    refine ((hsome.orElse_pure []).map (named package name ·)).mono (Nat.le_refl n) fun us hus => ⟨trivial, ?_⟩
    rw [typeArgs, bind_apply, hus .hash (by decide), Option.bind_none]
  have hpackage : Reads (n + 1) (fun us => True ∧ qualifier us = none) _ _ (optional qualifier) :=
    qualifier_reads.optional
  have hname : ∀ package, Reads (n + 1) Ends _ _ (do
      let name ← typeName
      return named package name (← orEmpty (typeArgs type))) := fun package =>
    (Reads.after_token (hargs package)).congr fun ts => by
      rw [bind_apply, bind_apply, typeName_eq]
  refine hpackage.bind hname fun p us hus => ⟨trivial, qualifier_of_mark_eq_none ?_ _⟩
  obtain ⟨name, args⟩ := p
  cases args with
  | none => exact hus .doubleColon (by decide)
  | some args => exact avoids_of_mark args.1 (by decide : Mark.hash ∉ [Mark.doubleColon]) _ _ (by decide)

theorem numericType_reads :
    Reads n follow (fun x : LiteralLeaf => [x.token]) (fun x => .numeric x.value) numericType :=
  (reads_token _).map numeric

/-- A function type is not taken for a named one: the word `function` names no type, and where it is the name
of a package no type starts at the `::` behind it. -/
theorem functionType_of_named (package : Option QualifierTree) (name : TypeNameLeaf) (us : List Token) :
    functionType rule (optionalTokens QualifierTree.tokens package ++ name.token :: us) = none := by
  cases package with
  | none =>
      obtain ⟨hread, hname⟩ := name.ofToken_eq
      refine functionType_of_not_isWord rule ?_ us
      rw [Token.isWord, Identifier.name_of_ofToken hread, beq_eq_false_iff_ne.mpr hname, Bool.and_false]
  | some package =>
      change functionType rule (package.package.token :: package.colons.token :: name.token :: us) = none
      cases hword : package.package.token.isWord "function" with
      | false => exact functionType_of_not_isWord rule hword _
      | true =>
          rw [functionType, bind_apply, keyword, tokenThat_cons, if_pos hword, Option.bind_some, bind_apply,
            rule_of_mark package.colons.kind_eq, Option.bind_none]

end TypeExpr

/-- The parts of the three kinds of type. -/
def TypeTree.equivParts : TypeTree ≃
    (WordLeaf "function" × TypeTree × NameLeaf .lowercase × GroupTree ParamTree) ⊕
      (Option QualifierTree × TypeNameLeaf × Option (MarkLeaf .hash × GroupTree TypeTree)) ⊕ LiteralLeaf where
  toFun
    | function word result name opening params closing => .inl (word, result, name, opening, params, closing)
    | named package name => .inr (.inl (package, name, none))
    | applied package name hash opening args closing =>
      .inr (.inl (package, name, some (hash, opening, args, closing)))
    | numeric literal => .inr (.inr literal)
  invFun
    | .inl (word, result, name, opening, params, closing) => function word result name opening params closing
    | .inr (.inl (package, name, none)) => named package name
    | .inr (.inl (package, name, some (hash, opening, args, closing))) =>
      applied package name hash opening args closing
    | .inr (.inr literal) => numeric literal
  left_inv tree := by cases tree <;> rfl
  right_inv := by rintro (_ | ⟨package, name, _ | _⟩ | _) <;> rfl

namespace TypeExpr

/-- One level of the grammar of types: what `type` reads below, the three kinds of type read above. -/
theorem level_reads (h : Reads n Ends TypeTree.tokens TypeTree.value rule) :
    Reads (n + 1) Ends TypeTree.tokens TypeTree.value
      (functionType rule <|> namedType rule <|> numericType) := by
  have hnumeric := (namedType_reads h rule_shrinks).orElse numericType_reads fun literal us _ =>
    namedType_of_kind rule literal.kind_ne us
  have hfunction := (functionType_reads h rule_shrinks).orElse hnumeric fun tree us _ => by
    rcases tree with ⟨package, name, args⟩ | literal
    · change functionType rule ((_ ++ _) ++ us) = none
      rw [List.append_assoc, List.cons_append]
      exact functionType_of_named package name _
    · exact functionType_of_not_isWord rule (isWord_of_kind literal.kind_ne _) us
  refine hfunction.of_equiv TypeTree.equivParts (fun tree => ?_) (fun tree => ?_)
  · cases tree with
    | function word result name opening params closing =>
        rw [TypeTree.tokens, TypeTree.paramsTokens_eq]
        rfl
    | named package name =>
        rw [TypeTree.tokens]
        rfl
    | applied package name hash opening args closing =>
        rw [TypeTree.tokens, TypeTree.argsTokens_eq]
        rfl
    | numeric literal =>
        rw [TypeTree.tokens]
        rfl
  · cases tree with
    | function word result name opening params closing =>
        rw [TypeTree.value, TypeTree.paramsValues_eq]
        rfl
    | named package name =>
        rw [TypeTree.value]
        rfl
    | applied package name hash opening args closing =>
        rw [TypeTree.value, TypeTree.argsValues_eq]
        rfl
    | numeric literal =>
        rw [TypeTree.value]
        rfl

theorem rule_reads (n : Nat) : Reads n Ends TypeTree.tokens TypeTree.value rule := by
  induction n with
  | zero => exact reads_zero
  | succ n ih => exact (level_reads ih).congr rule_eq

theorem ends_nil : Ends [] := fun _ _ => rfl

/-- Read to the end of the tokens, the rule for types takes in exactly what the grammar derives, with the value
of the derivation, and a token list has at most one derivation. -/
theorem rule_derives_types (tokens : List Token) :
    (∀ type, complete? rule tokens = some type ↔
      ∃ tree : TypeTree, tree.tokens = tokens ∧ tree.value = type) ∧
    ∀ tree tree' : TypeTree, tree.tokens = tokens → tree'.tokens = tokens → tree = tree' := by
  refine ⟨fun type => (rule_reads _).complete_eq_some_iff ends_nil, ?_⟩
  rintro tree tree' rfl htree'
  exact (rule_reads _).eq_of_tokens_eq ends_nil htree'.symm

end TypeExpr

end BluespecDocs
