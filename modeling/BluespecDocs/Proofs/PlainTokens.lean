import BluespecDocs.Proofs.LiteralDisplay
import BluespecDocs.Proofs.LongestMatch
import BluespecDocs.Proofs.SelfContained
import BluespecDocs.Proofs.TokenTexts
import BluespecDocs.Proofs.TypedefGrammar

/-!
Names, numbers and marks. The grammar of type definitions has no other tokens, and no token of these kinds
has a backquote in it, so none is in the source text of a type definition.
-/

namespace BluespecDocs

/-- Whether tokens of a kind are names, numbers or marks. -/
def TokenKind.isPlain : TokenKind → Bool
  | word | number | based | fill | mark _ => true
  | _ => false

theorem TokenKind.isPlain_of_isAtom {kind : TokenKind} (h : kind.isAtom = true) : kind.isPlain = true := by
  cases kind with
  | word => rfl
  | number => rfl
  | based => rfl
  | fill => rfl
  | _ => cases h

theorem TokenKind.backquote_not_mem {kind : TokenKind} (hplain : kind.isPlain = true) {w : List Char}
    (hw : w ∈ kind.language) : '\x60' ∉ w := by
  intro hmem
  have hatom (h : kind.isAtom = true) : False := by
    rcases isWordPart_or_apostrophe h hw _ hmem with hpart | hquote
    · exact absurd hpart (by decide)
    · exact absurd hquote (by decide)
  cases kind with
  | word => exact hatom rfl
  | number => exact hatom rfl
  | based => exact hatom rfl
  | fill => exact hatom rfl
  | mark m =>
      obtain rfl : w = m.text.toList := hw
      exact absurd hmem (by cases m <;> decide)
  | _ => cases hplain

/-- All tokens are names, numbers or marks. -/
def AllPlain (ts : List Token) : Prop := ∀ t ∈ ts, t.kind.isPlain = true

theorem isPlain_of_word {t : Token} (h : t.kind = .word) : t.kind.isPlain = true := by
  rw [h]
  rfl

theorem MarkLeaf.isPlain {m : Mark} (x : MarkLeaf m) : x.token.kind.isPlain = true := by
  rw [x.kind_eq]
  rfl

theorem WordLeaf.isPlain {name : String} (x : WordLeaf name) : x.token.kind.isPlain = true :=
  isPlain_of_word (Token.kind_of_isWord x.isWord)

theorem NameLeaf.isPlain {wanted : LetterCase} (x : NameLeaf wanted) : x.token.kind.isPlain = true :=
  isPlain_of_word x.kind_eq

theorem TypeNameLeaf.isPlain (x : TypeNameLeaf) : x.token.kind.isPlain = true :=
  isPlain_of_word (Identifier.ofToken_eq_ok.mp x.ofToken_eq.1).1

theorem LiteralLeaf.isPlain (x : LiteralLeaf) : x.token.kind.isPlain = true :=
  TokenKind.isPlain_of_isAtom (IntLiteral.isAtom_of_ofToken (TokenReader.eq_ok_of_toOption x.reads))

namespace AllPlain

theorem nil : AllPlain [] := fun _ ht => nomatch ht

theorem cons {t : Token} {ts : List Token} (ht : t.kind.isPlain = true) (hts : AllPlain ts) : AllPlain (t :: ts) :=
  List.forall_mem_cons.mpr ⟨ht, hts⟩

theorem append {ts us : List Token} (hts : AllPlain ts) (hus : AllPlain us) : AllPlain (ts ++ us) :=
  List.forall_mem_append.mpr ⟨hts, hus⟩

theorem optional {τ : Type} {tokens : τ → List Token} (h : ∀ x, AllPlain (tokens x)) (x : Option τ) :
    AllPlain (optionalTokens tokens x) := by
  cases x with
  | none => exact nil
  | some x => exact h x

theorem separated {τ : Type} {tokens : τ → List Token} (h : ∀ x, AllPlain (tokens x)) (items : Separated τ) :
    AllPlain (items.tokens tokens) := by
  induction items with
  | last item => exact h item
  | more item comma rest ih => exact (h item).append (cons comma.isPlain ih)

theorem singleton {t : Token} (ht : t.kind.isPlain = true) : AllPlain [t] := cons ht nil

theorem qualifier (package : Option QualifierTree) : AllPlain (optionalTokens QualifierTree.tokens package) :=
  optional (fun tree => cons (isPlain_of_word tree.package.kind_eq) (singleton tree.colons.isPlain)) package

end AllPlain

open AllPlain

mutual

theorem TypeTree.allPlain : (tree : TypeTree) → AllPlain tree.tokens
  | .function word result name opening params closing => by
      rw [tokens]
      exact cons word.isPlain (result.allPlain.append (cons name.isPlain (cons opening.isPlain
        ((allPlain_params params).append (singleton closing.isPlain)))))
  | .named package name => by
      rw [tokens]
      exact (qualifier package).append (singleton name.isPlain)
  | .applied package name hash opening args closing => by
      rw [tokens]
      exact (qualifier package).append (cons name.isPlain (cons hash.isPlain (cons opening.isPlain
        ((allPlain_args args).append (singleton closing.isPlain)))))
  | .numeric literal => by
      rw [tokens]
      exact singleton literal.isPlain

theorem TypeTree.allPlain_param : (param : ParamTree) → AllPlain (paramTokens param)
  | .mk type name => by
      rw [paramTokens]
      exact type.allPlain.append (singleton name.isPlain)

theorem TypeTree.allPlain_args : (args : Separated TypeTree) → AllPlain (argsTokens args)
  | .last item => by
      rw [argsTokens]
      exact item.allPlain
  | .more item comma rest => by
      rw [argsTokens]
      exact item.allPlain.append (cons comma.isPlain (allPlain_args rest))

theorem TypeTree.allPlain_params : (params : Separated ParamTree) → AllPlain (paramsTokens params)
  | .last item => by
      rw [paramsTokens]
      exact allPlain_param item
  | .more item comma rest => by
      rw [paramsTokens]
      exact (allPlain_param item).append (cons comma.isPlain (allPlain_params rest))

end

theorem TargetTree.allPlain (tree : TargetTree) : AllPlain tree.tokens := by
  have hformal (formal : FormalTree) : AllPlain formal.tokens :=
    (optional (fun word => singleton word.isPlain) formal.numeric).append
      (cons formal.word.isPlain (singleton formal.name.isPlain))
  have hformals (formals : FormalsTree) : AllPlain formals.tokens :=
    cons formals.hash.isPlain (cons formals.opening.isPlain
      ((separated hformal formals.items).append (singleton formals.closing.isPlain)))
  exact cons tree.name.isPlain (optional hformals tree.formals)

theorem ElementTree.allPlain (tree : ElementTree) : AllPlain tree.tokens := by
  cases tree with
  | plain name => exact singleton name.isPlain
  | assigned name equals literal => exact cons name.isPlain (cons equals.isPlain (singleton literal.isPlain))

theorem EndingTree.allPlain (tree : EndingTree) : AllPlain tree.tokens := by
  have hclasses (classes : DerivingTree) : AllPlain classes.tokens :=
    cons classes.word.isPlain (cons classes.opening.isPlain
      ((separated (fun name => singleton name.isPlain) classes.classes).append
        (singleton classes.closing.isPlain)))
  exact tree.target.allPlain.append ((optional hclasses tree.classes).append (singleton tree.semicolon.isPlain))

mutual

theorem MemberTree.allPlain {wanted : LetterCase} : (member : MemberTree wanted) → AllPlain member.tokens
  | .field type name semicolon => by
      rw [tokens]
      exact type.allPlain.append (cons name.isPlain (singleton semicolon.isPlain))
  | .block inner => by
      rw [tokens]
      exact allPlain_block inner

theorem MemberTree.allPlain_block : (block : BlockTree) → AllPlain (blockTokens block)
  | .struct word opening first others closing tag semicolon => by
      rw [blockTokens]
      exact cons word.isPlain (cons opening.isPlain (first.allPlain.append ((allPlain_fields others).append
        (cons closing.isPlain (cons tag.isPlain (singleton semicolon.isPlain))))))
  | .union word tagged opening first others closing tag semicolon => by
      rw [blockTokens]
      exact cons word.isPlain (cons tagged.isPlain (cons opening.isPlain (first.allPlain.append
        ((allPlain_cases others).append
          (cons closing.isPlain (cons tag.isPlain (singleton semicolon.isPlain)))))))

theorem MemberTree.allPlain_fields : (members : List (MemberTree .lowercase)) → AllPlain (fieldsTokens members)
  | [] => by
      rw [fieldsTokens]
      exact nil
  | member :: members => by
      rw [fieldsTokens]
      exact member.allPlain.append (allPlain_fields members)

theorem MemberTree.allPlain_cases : (members : List (MemberTree .capitalized)) → AllPlain (casesTokens members)
  | [] => by
      rw [casesTokens]
      exact nil
  | member :: members => by
      rw [casesTokens]
      exact member.allPlain.append (allPlain_cases members)

end

theorem TypedefTree.allPlain (tree : TypedefTree) : AllPlain tree.tokens := by
  cases tree with
  | synonym word type target semicolon =>
      exact cons word.isPlain (type.allPlain.append (target.allPlain.append (singleton semicolon.isPlain)))
  | enum word kind opening elements closing ending =>
      exact cons word.isPlain (cons kind.isPlain (cons opening.isPlain
        ((separated ElementTree.allPlain elements).append (cons closing.isPlain ending.allPlain))))
  | struct word kind opening first others closing ending =>
      have hothers := MemberTree.allPlain_fields others
      rw [MemberTree.fieldsTokens_eq] at hothers
      exact cons word.isPlain (cons kind.isPlain (cons opening.isPlain (first.allPlain.append
        (hothers.append (cons closing.isPlain ending.allPlain)))))
  | union word kind tagged opening first others closing ending =>
      have hothers := MemberTree.allPlain_cases others
      rw [MemberTree.casesTokens_eq] at hothers
      exact cons word.isPlain (cons kind.isPlain (cons tagged.isPlain (cons opening.isPlain
        (first.allPlain.append (hothers.append (cons closing.isPlain ending.allPlain))))))

namespace Token

/-- Every character of a text is layout or stands in a token. -/
theorem layout_or_mem_token {c : Char} (pos : Nat) {cs : List Char} (hc : c ∈ cs) :
    isLayout c = true ∨ ∃ t ∈ lexFrom pos cs, c ∈ t.text.toList := by
  induction pos, cs using lexFrom_induction with
  | nil pos => cases hc
  | layout pos d cs hd ih =>
      rw [lexFrom_layout hd]
      rcases List.mem_cons.mp hc with rfl | hc
      · exact .inl hd
      · exact ih hc
  | token pos d x rest kind hlead ih =>
      rw [hlead.lexFrom_eq pos (List.append_nil rest).symm]
      rw [← List.cons_append] at hc
      rcases List.mem_append.mp hc with hc | hc
      · exact .inr ⟨_, List.mem_cons_self, by rwa [String.toList_ofList]⟩
      · rcases ih hc with hlayout | ⟨t, ht, hmem⟩
        · exact .inl hlayout
        · exact .inr ⟨t, List.mem_cons_of_mem _ ht, hmem⟩

/-- The text of a name, a number or a mark is one of the texts of its kind. -/
theorem text_mem_language {t : Token} {pos : Nat} {cs : List Char} (ht : t ∈ lexFrom pos cs)
    (hplain : t.kind.isPlain = true) : t.text.toList ∈ t.kind.language := by
  refine mem_language_of_mem ht fun hother => ?_
  rw [hother] at hplain
  cases hplain

/-- A text of names, numbers and marks has no backquote. -/
theorem backquote_not_mem {text : String} (h : AllPlain (lex text)) : '\x60' ∉ text.toList := by
  intro hmem
  rcases layout_or_mem_token 0 hmem with hlayout | ⟨t, ht, hmem⟩
  · exact absurd hlayout (by decide)
  · exact TokenKind.backquote_not_mem (h t ht) (text_mem_language ht (h t ht)) hmem

end Token

/-- The source text of a type definition has no backquote. -/
theorem Extractor.backquote_not_mem_typedef {before : Extractor} {source path piece : String} {d : Declaration}
    (hd : d ∈ (before.scan source path).1.declarations) {defined : Typedef}
    (hdefined : d.construct = .ofTypedef defined) (hpiece : d.span.slice? source = some piece) :
    '\x60' ∉ piece.toList := by
  obtain ⟨p, q, us, hq, hlex, hspan, hrule⟩ := exists_tokens_of_mem hd
  obtain ⟨text, -, hslice, htokens, -, -⟩ := Token.exists_lex_slice hq hlex
  rw [← hspan, hpiece] at hslice
  obtain rfl := Option.some.inj hslice
  rw [hdefined] at hrule
  have htypedef : Typedef.rule (q ++ us) = some (defined, us) := Construct.rule_eq_some.mp hrule
  obtain ⟨tree, hsplit, -⟩ := (@Typedef.rule_reads _ fun _ => True).sound _ _ us (Nat.lt_succ_self _) htypedef
  obtain rfl : q = tree.tokens := List.append_cancel_right hsplit
  refine Token.backquote_not_mem fun t ht => ?_
  have hmoved := List.mem_map_of_mem (f := Token.mapOffsets (· + (tree.tokens.head hq).span.start)) ht
  rw [htokens] at hmoved
  exact tree.allPlain (t.mapOffsets _) hmoved

end BluespecDocs
