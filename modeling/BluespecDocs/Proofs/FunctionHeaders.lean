import BluespecDocs.Lexeme
import BluespecDocs.Proofs.FunctionBody
import BluespecDocs.Proofs.TypeGrammar

/-!
Function headers as they are written. Result type, name, parameters and provisos are told apart without a look behind
them: a type ends in front of a name, and a name alone ends in front of a parenthesis.
-/

namespace BluespecDocs

open Rule

/-- Tokens that are a type, with the type they are. -/
structure TypeText where
  tokens : List Token
  value : TypeExpr
  accepted : complete? TypeExpr.rule tokens = some value

namespace TypeText

theorem exists_tree (text : TypeText) : ∃ tree : TypeTree, tree.tokens = text.tokens ∧ tree.value = text.value :=
  ((TypeExpr.rule_reads _).complete_eq_some_iff TypeExpr.ends_nil).mp text.accepted

theorem eq_of_tokens {x y : TypeText} (h : x.tokens = y.tokens) : x = y := by
  obtain ⟨ts, a, hx⟩ := x
  obtain ⟨us, b, hy⟩ := y
  obtain rfl : ts = us := h
  obtain rfl : a = b := Option.some.inj (hx.symm.trans hy)
  rfl

theorem rule_reads (n : Nat) : Reads n TypeExpr.Ends tokens value TypeExpr.rule where
  complete x us hlength hus := by
    obtain ⟨tree, htokens, hvalue⟩ := x.exists_tree
    rw [← htokens] at hlength ⊢
    rw [← hvalue]
    exact (TypeExpr.rule_reads n).complete tree us hlength hus
  sound ts a us hlength h := by
    obtain ⟨tree, rfl, rfl⟩ := (TypeExpr.rule_reads n).sound ts a us hlength h
    have haccepted := ((TypeExpr.rule_reads _).complete_eq_some_iff TypeExpr.ends_nil).mpr ⟨tree, rfl, rfl⟩
    exact ⟨⟨tree.tokens, tree.value, haccepted⟩, rfl, rfl⟩
  unique x y us vs hlength hus hvs h := by
    obtain ⟨tree, htokens, -⟩ := x.exists_tree
    obtain ⟨tree', htokens', -⟩ := y.exists_tree
    rw [← htokens, ← htokens'] at h
    rw [← htokens] at hlength
    obtain rfl := (TypeExpr.rule_reads n).unique tree tree' us vs hlength hus hvs h
    exact eq_of_tokens (htokens.symm.trans htokens')

end TypeText

/-- A parameter as it is written: a type and possibly a name. -/
structure ParamText where
  type : TypeText
  name : Option (NameLeaf .lowercase)

namespace ParamText

def tokens (param : ParamText) : List Token :=
  param.type.tokens ++ optionalTokens (fun name => [name.token]) param.name

def value (param : ParamText) : TypeExpr × Option Identifier := (param.type.value, param.name.map Leaf.value)

/-- The parts of a parameter. -/
def equivParts : ParamText ≃ TypeText × Option (NameLeaf .lowercase) where
  toFun param := (param.type, param.name)
  invFun parts := ⟨parts.1, parts.2⟩
  left_inv _ := rfl
  right_inv _ := rfl

theorem paramRule_reads (n : Nat) :
    Reads n (fun us => TypeExpr.Ends us ∧ Identifier.lowercase us = none) tokens value
      FunctionHeader.paramRule := by
  have hname : ∀ type : TypeExpr, Reads n (fun us => TypeExpr.Ends us ∧ Identifier.lowercase us = none)
      (optionalTokens fun x : NameLeaf .lowercase => [x.token]) (fun x => (type, x.map Leaf.value))
      (do return (type, ← optional Identifier.lowercase)) := fun type =>
    (((reads_token _).optional).map (type, ·)).mono (Nat.le_refl n) fun us hus => hus
  refine ((TypeText.rule_reads n).bind hname fun name us hus => ?_).of_equiv equivParts (fun _ => rfl) fun _ => rfl
  cases name with
  | none => exact hus.1
  | some name => exact TypeExpr.ends_name name us

end ParamText

/-- Parameters in parentheses, possibly none. -/
abbrev ParamsText := MarkLeaf .leftParen × Option (Separated ParamText) × MarkLeaf .rightParen

namespace ParamsText

def tokens (params : ParamsText) : List Token :=
  params.1.token :: (optionalTokens (Separated.tokens ParamText.tokens) params.2.1 ++ [params.2.2.token])

def values (params : ParamsText) : List (TypeExpr × Option Identifier) :=
  params.2.1.elim [] (Separated.values ParamText.value)

theorem paramsRule_reads (n : Nat) : Reads n (fun us => mark .leftParen us = none) (optionalTokens tokens)
    (fun params => params.elim [] values) FunctionHeader.paramsRule := by
  have hitems := ((ParamText.paramRule_reads n).commaSeparated FunctionHeader.paramRule_shrinks
    fun comma us => ⟨TypeExpr.ends_mark (by decide) comma us, Identifier.lowercase_of_mark comma us⟩).orElse_pure []
  have hparam (closing : MarkLeaf .rightParen) (us : List Token) :
      commaSeparated FunctionHeader.paramRule (closing.token :: us) = none := by
    refine commaSeparated_of_none ?_
    rw [FunctionHeader.paramRule, bind_apply, TypeExpr.rule_of_mark closing.kind_eq, Option.bind_none]
  have hgroup : Reads n (fun _ => True) tokens values (between .leftParen .rightParen
      (orEmpty (commaSeparated FunctionHeader.paramRule))) :=
    (hitems.between .leftParen .rightParen fun closing us => ⟨⟨⟨TypeExpr.ends_mark (by decide) closing us,
      Identifier.lowercase_of_mark closing us⟩, mark_of_kind (by rw [closing.kind_eq]; decide) us⟩,
      hparam closing us⟩).mono (Nat.le_succ n) fun _ hus => hus
  refine (hgroup.orElse_pure []).mono (Nat.le_refl n) fun us hus => ⟨trivial, ?_⟩
  rw [between, bind_apply, hus, Option.bind_none]

end ParamsText

/-- `provisos(T, …)` -/
abbrev ProvisosText := WordLeaf "provisos" × GroupTree TypeText

namespace ProvisosText

def tokens (provisos : ProvisosText) : List Token :=
  provisos.1.token :: provisos.2.tokens TypeText.tokens

def values (provisos : ProvisosText) : List TypeExpr := provisos.2.2.1.values TypeText.value

theorem provisosRule_reads (n : Nat) : Reads n (fun us => keyword "provisos" us = none) (optionalTokens tokens)
    (fun provisos => provisos.elim [] values) TypeExpr.provisosRule := by
  have hgroup : Reads n (fun _ => True) tokens values (do
      keyword "provisos"
      parenthesized TypeExpr.rule) :=
    Reads.token_bind fun _ => (TypeText.rule_reads n).parenthesized TypeExpr.rule_shrinks
      (TypeExpr.ends_mark (by decide)) (TypeExpr.ends_mark (by decide))
  refine (hgroup.orElse_pure []).mono (Nat.le_refl n) fun us hus => ⟨trivial, ?_⟩
  rw [bind_apply, hus, Option.bind_none]

end ProvisosText

/-- A function header as it is written. -/
structure HeaderText where
  word : WordLeaf "function"
  result : Option TypeText
  name : NameLeaf .lowercase
  params : Option ParamsText
  provisos : Option ProvisosText
  semicolon : MarkLeaf .semicolon

namespace HeaderText

/-- The tokens behind the name. -/
def tail (text : HeaderText) : List Token :=
  optionalTokens ParamsText.tokens text.params ++
    (optionalTokens ProvisosText.tokens text.provisos ++ [text.semicolon.token])

def tokens (text : HeaderText) : List Token :=
  text.word.token :: (optionalTokens TypeText.tokens text.result ++ text.name.token :: text.tail)

def value (text : HeaderText) : FunctionHeader where
  name := text.name.value
  result := text.result.map TypeText.value
  params := text.params.elim [] ParamsText.values
  provisos := text.provisos.elim [] ProvisosText.values

end HeaderText

/-- A lower-case name as the name of a type. -/
def NameLeaf.typeName (name : NameLeaf .lowercase) (hname : name.value.name ≠ "function") : TypeNameLeaf where
  token := name.token
  value := name.value
  reads := by
    rw [name.ofToken_eq.1]
    exact Option.filter_some_pos (by simpa using hname)

namespace FunctionHeader

theorem resultAndName_of_result (result : TypeText) (name : NameLeaf .lowercase) (us : List Token) :
    resultAndName (result.tokens ++ name.token :: us) = some ((some result.value, name.value), us) := by
  have hresult := (TypeText.rule_reads _).complete result (name.token :: us) (Nat.lt_succ_self _)
    (TypeExpr.ends_name name us)
  rw [resultAndName, orElse_apply, bind_apply, hresult, Option.bind_some, bind_apply, Identifier.lowercase_leaf]
  rfl

/-- A name in front of a mark is read as a type first, and then no name is left for the function. -/
theorem resultAndName_of_name (name : NameLeaf .lowercase) (hname : name.value.name ≠ "function") {m : Mark}
    (hm : m ∉ [Mark.hash, .doubleColon]) (x : MarkLeaf m) (us : List Token) :
    resultAndName (name.token :: x.token :: us) = some ((none, name.value), x.token :: us) := by
  have htype := (TypeExpr.rule_reads _).complete (.named none (name.typeName hname)) (x.token :: us)
    (Nat.lt_succ_self _) (TypeExpr.ends_mark hm x us)
  rw [TypeTree.tokens] at htype
  change TypeExpr.rule (name.token :: x.token :: us) = _ at htype
  rw [resultAndName, orElse_apply, bind_apply, htype, Option.bind_some, bind_apply, Identifier.lowercase_of_mark,
    Option.bind_none, Option.none_or, bind_apply, Identifier.lowercase_leaf]
  rfl

theorem resultAndName_of_text (text : HeaderText) (hname : text.name.value.name ≠ "function")
    (hwritten : text.result.isSome ∨ text.params.isSome) (us : List Token) :
    resultAndName (optionalTokens TypeText.tokens text.result ++ text.name.token :: (text.tail ++ us)) =
      some ((text.result.map TypeText.value, text.name.value), text.tail ++ us) := by
  cases hresult : text.result with
  | some result => exact resultAndName_of_result result text.name (text.tail ++ us)
  | none =>
      obtain ⟨params, hparams⟩ := Option.isSome_iff_exists.mp
        (hwritten.resolve_left (by rw [hresult]; exact Bool.false_ne_true))
      rw [HeaderText.tail, hparams]
      exact resultAndName_of_name text.name hname (by decide) params.1 _

theorem rule_of_text (text : HeaderText) (hname : text.name.value.name ≠ "function")
    (hwritten : text.result.isSome ∨ text.params.isSome) (us : List Token) :
    rule (text.tokens ++ us) = some (text.value, us) := by
  have hkeyword : keyword "provisos" (text.semicolon.token :: us) = none :=
    keyword_of_not_isWord (TypeExpr.isWord_of_kind (by rw [text.semicolon.kind_eq]; decide) _) us
  have hparen : mark .leftParen (optionalTokens ProvisosText.tokens text.provisos ++ text.semicolon.token :: us) =
      none := by
    cases text.provisos with
    | none => exact mark_of_kind (by rw [text.semicolon.kind_eq]; decide) us
    | some provisos => exact mark_of_kind (by rw [Token.kind_of_isWord provisos.1.isWord]; decide) _
  have hparams := (ParamsText.paramsRule_reads _).complete text.params _ (Nat.lt_succ_self _) hparen
  have hprovisos := (ProvisosText.provisosRule_reads _).complete text.provisos _ (Nat.lt_succ_self _) hkeyword
  have htail : text.tail ++ us = optionalTokens ParamsText.tokens text.params ++
      (optionalTokens ProvisosText.tokens text.provisos ++ text.semicolon.token :: us) := by
    rw [HeaderText.tail, List.append_assoc, List.append_assoc, List.singleton_append]
  have hstart := resultAndName_of_text text hname hwritten us
  rw [htail] at hstart
  rw [HeaderText.tokens, List.cons_append, List.append_assoc, List.cons_append, htail]
  exact bind_eq_some.mpr ⟨_, _, keyword_leaf _ _, bind_eq_some.mpr ⟨_, _, hstart, bind_eq_some.mpr ⟨_, _, hparams,
    bind_eq_some.mpr ⟨_, _, hprovisos, bind_eq_some.mpr ⟨_, _, mark_leaf _ _, rfl⟩⟩⟩⟩⟩

end FunctionHeader

/-- A header with the closing word right behind it is a function without a body. -/
theorem Function.rule_of_header {header : FunctionHeader} {t : Token} {ts : List Token}
    (ending : WordLeaf "endfunction")
    (h : FunctionHeader.rule (t :: ts ++ [ending.token]) = some (header, [ending.token])) :
    rule (t :: ts ++ [ending.token]) = some (⟨header, ⟨t.span.start, ending.token.span.stop⟩, []⟩, []) := by
  refine rule_eq_some.mpr ⟨header, [ending.token], [], h, bodyAndClose_closing ending.isWord [], ?_⟩
  have hspan := spanRead_append (List.append_ne_nil_of_left_ne_nil (List.cons_ne_nil t ts) [ending.token]) []
  rw [List.append_nil] at hspan
  rw [hspan, List.getLast_concat]
  rfl

/-- A function without a body has what is written in its header, if a result type or parameters are written there. -/
theorem Function.rule_of_header_text (text : HeaderText) (ending : WordLeaf "endfunction")
    (hname : text.name.value.name ≠ "function") (hwritten : text.result.isSome ∨ text.params.isSome) :
    rule (text.tokens ++ [ending.token]) =
      some (⟨text.value, ⟨text.word.token.span.start, ending.token.span.stop⟩, []⟩, []) := by
  have hheader := FunctionHeader.rule_of_text text hname hwritten [ending.token]
  exact rule_of_header ending hheader

/-- The header `function f(function Bool g(int x) h, t) provisos(Eq#(t));`. -/
def higherOrderText : HeaderText where
  word := ⟨⟨.word, "function", ⟨0, 8⟩⟩, (), rfl⟩
  result := none
  name := ⟨⟨.word, "f", ⟨9, 10⟩⟩, ⟨"f", .lowercase⟩, rfl⟩
  params := some (⟨⟨.mark .leftParen, "(", ⟨10, 11⟩⟩, (), rfl⟩,
    some (.more
      ⟨⟨[⟨.word, "function", ⟨11, 19⟩⟩, ⟨.word, "Bool", ⟨20, 24⟩⟩, ⟨.word, "g", ⟨25, 26⟩⟩,
          ⟨.mark .leftParen, "(", ⟨26, 27⟩⟩, ⟨.word, "int", ⟨27, 30⟩⟩, ⟨.word, "x", ⟨31, 32⟩⟩,
          ⟨.mark .rightParen, ")", ⟨32, 33⟩⟩],
        .function (.ofName ⟨"Bool", .capitalized⟩) ⟨"g", .lowercase⟩ [.ofName ⟨"int", .lowercase⟩], rfl⟩,
        some ⟨⟨.word, "h", ⟨34, 35⟩⟩, ⟨"h", .lowercase⟩, rfl⟩⟩
      ⟨⟨.mark .comma, ",", ⟨35, 36⟩⟩, (), rfl⟩
      (.last ⟨⟨[⟨.word, "t", ⟨37, 38⟩⟩], .ofName ⟨"t", .lowercase⟩, rfl⟩, none⟩)),
    ⟨⟨.mark .rightParen, ")", ⟨38, 39⟩⟩, (), rfl⟩)
  provisos := some (⟨⟨.word, "provisos", ⟨40, 48⟩⟩, (), rfl⟩, ⟨⟨.mark .leftParen, "(", ⟨48, 49⟩⟩, (), rfl⟩,
    .last ⟨[⟨.word, "Eq", ⟨49, 51⟩⟩, ⟨.mark .hash, "#", ⟨51, 52⟩⟩, ⟨.mark .leftParen, "(", ⟨52, 53⟩⟩,
        ⟨.word, "t", ⟨53, 54⟩⟩, ⟨.mark .rightParen, ")", ⟨54, 55⟩⟩],
      .named none ⟨"Eq", .capitalized⟩ [.ofName ⟨"t", .lowercase⟩], rfl⟩,
    ⟨⟨.mark .rightParen, ")", ⟨55, 56⟩⟩, (), rfl⟩)
  semicolon := ⟨⟨.mark .semicolon, ";", ⟨56, 57⟩⟩, (), rfl⟩

theorem Function.rule_of_header_text_higherOrder :
    higherOrderText.tokens ++ [⟨.word, "endfunction", ⟨58, 69⟩⟩] =
      Token.lex "function f(function Bool g(int x) h, t) provisos(Eq#(t)); endfunction" ∧
    rule (Token.lex "function f(function Bool g(int x) h, t) provisos(Eq#(t)); endfunction") =
      some (⟨⟨⟨"f", .lowercase⟩, none,
        [(.function (.ofName ⟨"Bool", .capitalized⟩) ⟨"g", .lowercase⟩ [.ofName ⟨"int", .lowercase⟩],
            some ⟨"h", .lowercase⟩),
          (.ofName ⟨"t", .lowercase⟩, none)],
        [.named none ⟨"Eq", .capitalized⟩ [.ofName ⟨"t", .lowercase⟩]]⟩, ⟨0, 69⟩, []⟩, []) := by
  have hlex : higherOrderText.tokens ++ [⟨.word, "endfunction", ⟨58, 69⟩⟩] =
      Token.lex "function f(function Bool g(int x) h, t) provisos(Eq#(t)); endfunction" := by decide +kernel
  refine ⟨hlex, ?_⟩
  rw [← hlex]
  exact rule_of_header_text higherOrderText ⟨_, (), rfl⟩ (by decide) (.inr rfl)

end BluespecDocs
