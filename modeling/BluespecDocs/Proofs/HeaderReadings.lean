import BluespecDocs.Proofs.FunctionHeaders

/-!
Headers that can be read in two ways. A result type is tried before a name alone, and the word `provisos` can be a name.
So where neither a result type nor parameters are written, a name with provisos behind it is read as the result type of
a function that is called `provisos` and has the provisos for its parameters.
-/

namespace BluespecDocs

open Rule

namespace Separated

variable {α σ τ : Type}

/-- Items with the same commas between them. -/
def map (f : σ → τ) : Separated σ → Separated τ
  | last item => last (f item)
  | more item comma rest => more (f item) comma (rest.map f)

theorem tokens_map (f : σ → τ) (itemTokens : τ → List Token) (items : Separated σ) :
    (items.map f).tokens itemTokens = items.tokens fun item => itemTokens (f item) := by
  induction items with
  | last item => rfl
  | more item comma rest ih => rw [map, tokens, tokens, ih]

theorem values_map (f : σ → τ) (itemValue : τ → α) (items : Separated σ) :
    (items.map f).values itemValue = items.values fun item => itemValue (f item) := by
  induction items with
  | last item => rfl
  | more item comma rest ih => rw [map, values, values, ih]

theorem map_values {β : Type} (g : α → β) (itemValue : σ → α) (items : Separated σ) :
    (items.values itemValue).map g = items.values fun item => g (itemValue item) := by
  induction items with
  | last item => rfl
  | more item comma rest ih => rw [values, values, List.map_cons, ih]

end Separated

/-- A name that is written for a type. -/
def TypeText.ofName (name : NameLeaf .lowercase) (hname : name.value.name ≠ "function") : TypeText where
  tokens := [name.token]
  value := .ofName name.value
  accepted := ((TypeExpr.rule_reads _).complete_eq_some_iff TypeExpr.ends_nil).mpr
    ⟨.named none (name.typeName hname), rfl, rfl⟩

namespace ProvisosText

/-- The word `provisos` as a name. -/
def asName (provisos : ProvisosText) : NameLeaf .lowercase where
  token := provisos.1.token
  value := ⟨"provisos", .lowercase⟩
  reads := by
    rw [Identifier.ofTokenIn, Identifier.ofToken, Token.kind_of_isWord provisos.1.isWord, provisos.1.text_eq]
    rfl

/-- The types in a clause as parameters without names. -/
def asParams (provisos : ProvisosText) : ParamsText :=
  (provisos.2.1, some (provisos.2.2.1.map fun type => ⟨type, none⟩), provisos.2.2.2)

theorem tokens_asParams (provisos : ProvisosText) : provisos.asParams.tokens = provisos.2.tokens TypeText.tokens := by
  have hparam (type : TypeText) : ParamText.tokens ⟨type, none⟩ = type.tokens := List.append_nil type.tokens
  rw [ParamsText.tokens, asParams, optionalTokens, Separated.tokens_map, GroupTree.tokens]
  simp only [hparam]

theorem values_asParams (provisos : ProvisosText) : provisos.asParams.values = provisos.values.map (·, none) := by
  rw [ParamsText.values, asParams, Option.elim_some, Separated.values_map, values, Separated.map_values]
  rfl

end ProvisosText

namespace HeaderText

/-- The other reading of a header that has a name and provisos. -/
def reread (text : HeaderText) (provisos : ProvisosText) (hname : text.name.value.name ≠ "function") : HeaderText where
  word := text.word
  result := some (.ofName text.name hname)
  name := provisos.asName
  params := some provisos.asParams
  provisos := none
  semicolon := text.semicolon

theorem tokens_reread {text : HeaderText} {provisos : ProvisosText} (hname : text.name.value.name ≠ "function")
    (hresult : text.result = none) (hparams : text.params = none) (hprovisos : text.provisos = some provisos) :
    (text.reread provisos hname).tokens = text.tokens := by
  have htail : (text.reread provisos hname).tail = provisos.2.tokens TypeText.tokens ++ [text.semicolon.token] := by
    rw [tail, reread]
    dsimp only
    rw [optionalTokens, optionalTokens, List.nil_append, provisos.tokens_asParams]
  have htail' : text.tail = provisos.1.token :: (provisos.2.tokens TypeText.tokens ++ [text.semicolon.token]) := by
    rw [tail, hparams, hprovisos]
    rfl
  rw [tokens, tokens, hresult, htail, htail']
  rfl

end HeaderText

namespace Function

/-- A clause of provisos is read as what it is, exactly if a result type or parameters are written in front of it. If
not, the word `provisos` is taken for the name of the function and the name for its result type. -/
theorem rule_of_provisos_text (text : HeaderText) (provisos : ProvisosText) (ending : WordLeaf "endfunction")
    (hname : text.name.value.name ≠ "function") (hprovisos : text.provisos = some provisos) :
    rule (text.tokens ++ [ending.token]) = some (⟨
      if text.result.isSome ∨ text.params.isSome then text.value
      else ⟨⟨"provisos", .lowercase⟩, some (.ofName text.name.value), provisos.values.map (·, none), []⟩,
      ⟨text.word.token.span.start, ending.token.span.stop⟩, []⟩, []) := by
  split
  · next hwritten => exact rule_of_header ending (FunctionHeader.rule_of_text text hname hwritten _)
  · next hbare =>
      rw [not_or, Option.not_isSome_iff_eq_none, Option.not_isSome_iff_eq_none] at hbare
      have htokens := HeaderText.tokens_reread hname hbare.1 hbare.2 hprovisos
      have hword : (text.reread provisos hname).name.value.name ≠ "function" :=
        show "provisos" ≠ "function" by decide
      have hheader := FunctionHeader.rule_of_text (text.reread provisos hname) hword (.inl rfl) [ending.token]
      rw [htokens] at hheader
      have hvalue : (text.reread provisos hname).value =
          ⟨⟨"provisos", .lowercase⟩, some (.ofName text.name.value), provisos.values.map (·, none), []⟩ := by
        rw [← provisos.values_asParams]
        rfl
      rw [← hvalue]
      exact rule_of_header ending hheader

end Function

/-- The header `function f provisos(Eq#(t), Bits);` behind two blanks. -/
def bareProvisosText : HeaderText where
  word := ⟨⟨.word, "function", ⟨2, 10⟩⟩, (), rfl⟩
  result := none
  name := ⟨⟨.word, "f", ⟨11, 12⟩⟩, ⟨"f", .lowercase⟩, rfl⟩
  params := none
  provisos := some (⟨⟨.word, "provisos", ⟨13, 21⟩⟩, (), rfl⟩, ⟨⟨.mark .leftParen, "(", ⟨21, 22⟩⟩, (), rfl⟩,
    .more ⟨[⟨.word, "Eq", ⟨22, 24⟩⟩, ⟨.mark .hash, "#", ⟨24, 25⟩⟩, ⟨.mark .leftParen, "(", ⟨25, 26⟩⟩,
        ⟨.word, "t", ⟨26, 27⟩⟩, ⟨.mark .rightParen, ")", ⟨27, 28⟩⟩],
      .named none ⟨"Eq", .capitalized⟩ [.ofName ⟨"t", .lowercase⟩], rfl⟩
    ⟨⟨.mark .comma, ",", ⟨28, 29⟩⟩, (), rfl⟩
    (.last ⟨[⟨.word, "Bits", ⟨30, 34⟩⟩], .ofName ⟨"Bits", .capitalized⟩, rfl⟩),
    ⟨⟨.mark .rightParen, ")", ⟨34, 35⟩⟩, (), rfl⟩)
  semicolon := ⟨⟨.mark .semicolon, ";", ⟨35, 36⟩⟩, (), rfl⟩

theorem Function.rule_of_provisos_text_bare :
    bareProvisosText.tokens ++ [⟨.word, "endfunction", ⟨37, 48⟩⟩] =
      Token.lex "  function f provisos(Eq#(t), Bits); endfunction" ∧
    rule (Token.lex "  function f provisos(Eq#(t), Bits); endfunction") =
      some (⟨⟨⟨"provisos", .lowercase⟩, some (.ofName ⟨"f", .lowercase⟩),
        [(.named none ⟨"Eq", .capitalized⟩ [.ofName ⟨"t", .lowercase⟩], none),
          (.ofName ⟨"Bits", .capitalized⟩, none)], []⟩, ⟨2, 48⟩, []⟩, []) := by
  have hlex : bareProvisosText.tokens ++ [⟨.word, "endfunction", ⟨37, 48⟩⟩] =
      Token.lex "  function f provisos(Eq#(t), Bits); endfunction" := by decide +kernel
  refine ⟨hlex, ?_⟩
  rw [← hlex]
  exact rule_of_provisos_text bareProvisosText _ ⟨_, (), rfl⟩ (by decide) rfl

/-- A function `f` with provisos alone is not read as one. -/
theorem Function.provisos_taken_for_name :
    rule (Token.lex "function f provisos(Bits); endfunction") =
      some (⟨⟨⟨"provisos", .lowercase⟩, some (.ofName ⟨"f", .lowercase⟩), [(.ofName ⟨"Bits", .capitalized⟩, none)], []⟩,
        ⟨0, 38⟩, []⟩, []) ∧
    rule (Token.lex "function f provisos(Bits); endfunction") ≠
      some (⟨⟨⟨"f", .lowercase⟩, none, [], [.ofName ⟨"Bits", .capitalized⟩]⟩, ⟨0, 38⟩, []⟩, []) := by
  have hread : rule (Token.lex "function f provisos(Bits); endfunction") =
      some (⟨⟨⟨"provisos", .lowercase⟩, some (.ofName ⟨"f", .lowercase⟩), [(.ofName ⟨"Bits", .capitalized⟩, none)], []⟩,
        ⟨0, 38⟩, []⟩, []) := by
    have hlex : Token.lex "function f provisos(Bits); endfunction" =
        [⟨.word, "function", ⟨0, 8⟩⟩, ⟨.word, "f", ⟨9, 10⟩⟩, ⟨.word, "provisos", ⟨11, 19⟩⟩,
          ⟨.mark .leftParen, "(", ⟨19, 20⟩⟩, ⟨.word, "Bits", ⟨20, 24⟩⟩, ⟨.mark .rightParen, ")", ⟨24, 25⟩⟩,
          ⟨.mark .semicolon, ";", ⟨25, 26⟩⟩, ⟨.word, "endfunction", ⟨27, 38⟩⟩] := by decide +kernel
    rw [hlex]
    rfl
  refine ⟨hread, ?_⟩
  rw [hread]
  simp

end BluespecDocs
