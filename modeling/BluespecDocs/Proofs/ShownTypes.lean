import BluespecDocs.Proofs.TypeGrammar

/-!
Types as they are written out, which is the grammar of types but for the parameters of function types, which
have no names. Without a function type such a tree is one of the grammar. With one, the rule for types does not
get through: it does not apply, or it takes a type name alone and stops in front of the arguments it cannot read.
-/

namespace BluespecDocs

open Rule

namespace TypeExpr

mutual

/-- Whether a type has a function type in it, at any depth. -/
def hasFunction : TypeExpr → Bool
  | named _ _ args => anyHasFunction args
  | function _ _ _ => true
  | numeric _ => false

/-- Whether one of several types has a function type in it. -/
def anyHasFunction : List TypeExpr → Bool
  | [] => false
  | t :: ts => hasFunction t || anyHasFunction ts

end

end TypeExpr

/-- A type as it is written out. -/
inductive ShownTree where
  | function (word : WordLeaf "function") (result : ShownTree) (name : NameLeaf .lowercase)
      (opening : MarkLeaf .leftParen) (params : Separated ShownTree) (closing : MarkLeaf .rightParen)
  | named (package : Option QualifierTree) (name : TypeNameLeaf)
  | applied (package : Option QualifierTree) (name : TypeNameLeaf) (hash : MarkLeaf .hash)
      (opening : MarkLeaf .leftParen) (args : Separated ShownTree) (closing : MarkLeaf .rightParen)
  | numeric (literal : LiteralLeaf)

namespace ShownTree

mutual

def tokens : ShownTree → List Token
  | function word result name opening params closing =>
    word.token :: (tokens result ++ name.token :: opening.token :: (itemsTokens params ++ [closing.token]))
  | named package name => optionalTokens QualifierTree.tokens package ++ [name.token]
  | applied package name hash opening args closing =>
    optionalTokens QualifierTree.tokens package ++
      name.token :: hash.token :: opening.token :: (itemsTokens args ++ [closing.token])
  | numeric literal => [literal.token]

def itemsTokens : Separated ShownTree → List Token
  | .last item => tokens item
  | .more item comma rest => tokens item ++ comma.token :: itemsTokens rest

end

mutual

def value : ShownTree → TypeExpr
  | function _ result name _ params _ => .function (value result) name.value (itemsValues params)
  | named package name => .named (package.map QualifierTree.value) name.value []
  | applied package name _ _ args _ => .named (package.map QualifierTree.value) name.value (itemsValues args)
  | numeric literal => .numeric literal.value

def itemsValues : Separated ShownTree → List TypeExpr
  | .last item => [value item]
  | .more item _ rest => value item :: itemsValues rest

end

end ShownTree

namespace ShownTree

open TypeExpr

mutual

/-- What is written without a function type is written as the grammar has it. -/
theorem exists_typeTree : (shown : ShownTree) → shown.value.hasFunction = false →
    ∃ tree : TypeTree, tree.tokens = shown.tokens ∧ tree.value = shown.value
  | .function word result name opening params closing, h => by
      rw [value, hasFunction] at h
      cases h
  | .named package name, _ => ⟨.named package name, by rw [TypeTree.tokens, tokens], by rw [TypeTree.value, value]⟩
  | .applied package name hash opening args closing, h => by
      rw [value, hasFunction] at h
      obtain ⟨items, htokens, hvalues⟩ := exists_typeTrees args h
      refine ⟨.applied package name hash opening items closing, ?_, ?_⟩
      · rw [TypeTree.tokens, tokens, htokens]
      · rw [TypeTree.value, value, hvalues]
  | .numeric literal, _ => ⟨.numeric literal, by rw [TypeTree.tokens, tokens], by rw [TypeTree.value, value]⟩

theorem exists_typeTrees : (items : Separated ShownTree) → anyHasFunction (itemsValues items) = false →
    ∃ trees : Separated TypeTree, TypeTree.argsTokens trees = itemsTokens items ∧
      TypeTree.argsValues trees = itemsValues items
  | .last item, h => by
      rw [itemsValues, anyHasFunction, anyHasFunction, Bool.or_false] at h
      obtain ⟨tree, htokens, hvalue⟩ := exists_typeTree item h
      refine ⟨.last tree, ?_, ?_⟩
      · rw [TypeTree.argsTokens, itemsTokens, htokens]
      · rw [TypeTree.argsValues, itemsValues, hvalue]
  | .more item comma rest, h => by
      rw [itemsValues, anyHasFunction, Bool.or_eq_false_iff] at h
      obtain ⟨tree, htokens, hvalue⟩ := exists_typeTree item h.1
      obtain ⟨trees, hrest, hvalues⟩ := exists_typeTrees rest h.2
      refine ⟨.more tree comma trees, ?_, ?_⟩
      · rw [TypeTree.argsTokens, itemsTokens, htokens, hrest]
      · rw [TypeTree.argsValues, itemsValues, hvalue, hvalues]

end

theorem rule_of_free {shown : ShownTree} (h : shown.value.hasFunction = false) {us : List Token} (hus : Ends us) :
    rule (shown.tokens ++ us) = some (shown.value, us) := by
  obtain ⟨tree, htokens, hvalue⟩ := exists_typeTree shown h
  rw [← htokens, ← hvalue]
  exact (rule_reads _).complete tree us (Nat.lt_succ_self _) hus

/-- No tree starts with a mark. -/
theorem mark_eq_none (m : Mark) (shown : ShownTree) (us : List Token) : mark m (shown.tokens ++ us) = none := by
  have hword {t : Token} (ht : t.kind = .word) (vs : List Token) : mark m (t :: vs) = none :=
    avoids_of_word ht [m] vs m (List.mem_singleton_self m)
  have hname (package : Option QualifierTree) (name : TypeNameLeaf) (vs : List Token) :
      mark m (optionalTokens QualifierTree.tokens package ++ name.token :: vs) = none := by
    cases package with
    | none => exact hword (Identifier.ofToken_eq_ok.mp name.ofToken_eq.1).1 vs
    | some package => exact hword package.package.kind_eq _
  cases shown with
  | function word result name opening params closing =>
      rw [tokens]
      exact hword (Token.kind_of_isWord word.isWord) _
  | named package name =>
      rw [tokens, List.append_assoc]
      exact hname package name us
  | applied package name hash opening args closing =>
      rw [tokens, List.append_assoc]
      exact hname package name _
  | numeric literal =>
      rw [tokens]
      refine mark_of_kind (fun hkind => ?_) us
      have hread := literal.reads
      rw [IntLiteral.ofToken, hkind] at hread
      cases hread

end ShownTree

namespace Rule

variable {α : Type} {r : Rule α}

theorem commaSeparated_of_some {ts us : List Token} {a : α} (hr : r ts = some (a, us)) :
    commaSeparated r ts = (many (do mark .comma; r) us).map fun others => (a :: others.1, others.2) := by
  rw [commaSeparated, Reader.separated, bind_apply, hr, Option.bind_some, bind_apply]
  cases many (do mark .comma; r) us <;> rfl

/-- Items go on behind a comma if one is read there. -/
theorem many_of_comma (hs : Shrinks r) (comma : MarkLeaf .comma) (us : List Token) :
    many (do mark .comma; r) (comma.token :: us) =
      (commaSeparated r us).or (some ([], comma.token :: us)) := by
  have hitem : (do mark .comma; r) (comma.token :: us) = r us := by
    rw [bind_apply, mark_leaf, Option.bind_some]
  cases hr : r us with
  | none =>
      rw [many_of_none (hitem.trans hr), commaSeparated, Reader.separated, bind_apply, hr, Option.bind_none,
        Option.none_or]
  | some found =>
      obtain ⟨others, vs, hothers⟩ := exists_many (do mark .comma; r) found.2
      rw [many_of_some ((shrinks_mark .comma).bind fun _ => hs.keeps) (hitem.trans hr),
        commaSeparated_of_some hr, hothers, Option.map_some, Option.some_or]

end Rule

namespace TypeExpr

/-- A type name behind which no arguments are read is a type on its own, wherever it stands. -/
theorem rule_of_typeArgs_eq_none (package : Option QualifierTree) (name : TypeNameLeaf) {us : List Token}
    (hcolons : mark .doubleColon us = none) (hargs : typeArgs rule us = none) :
    rule (optionalTokens QualifierTree.tokens package ++ name.token :: us) =
      some (.named (package.map QualifierTree.value) name.value [], us) := by
  have hpackage := (qualifier_reads.optional : Reads _ (fun us => True ∧ qualifier us = none) _ _ _).complete
    package (name.token :: us) (Nat.lt_succ_self _) ⟨trivial, qualifier_of_mark_eq_none hcolons _⟩
  have hname : typeName (name.token :: us) = some (name.value, us) := by
    rw [typeName_eq]
    exact token_eq_some.mpr ⟨name, rfl, rfl⟩
  have hnamed : namedType rule (optionalTokens QualifierTree.tokens package ++ name.token :: us) =
      some (.named (package.map QualifierTree.value) name.value [], us) := by
    rw [namedType, bind_apply, hpackage, Option.bind_some, bind_apply, hname, Option.bind_some, bind_apply, orEmpty,
      orElse_apply, hargs]
    rfl
  rw [rule_eq, orElse_apply, functionType_of_named, Option.none_or, orElse_apply, hnamed, Option.some_or]

/-- The word `function` is no type name. -/
theorem namedType_of_function (word : WordLeaf "function") {us : List Token} (hus : mark .doubleColon us = none) :
    namedType rule (word.token :: us) = none := by
  have hname : typeName (word.token :: us) = none := by
    rw [typeName_eq, token_cons, Option.map_eq_none_iff, Option.filter_eq_none_iff]
    intro ident hident
    have htext := Identifier.name_of_ofToken (TokenReader.eq_ok_of_toOption hident)
    rw [word.text_eq] at htext
    simp [← htext]
  rw [namedType, bind_apply, optional_apply, qualifier_of_mark_eq_none hus, Option.map_none, Option.none_or,
    Option.bind_some, bind_apply, hname, Option.bind_none]

theorem numericType_of_word {name : String} (word : WordLeaf name) (us : List Token) :
    numericType (word.token :: us) = none := by
  change (((IntLiteral.ofToken word.token).toOption.map (·, us)).bind _) = none
  rw [IntLiteral.ofToken, Token.kind_of_isWord word.isWord]
  rfl

/-- The rule for types does not apply, or it stops in front of arguments. -/
def Stalls (ts : List Token) : Prop :=
  ∀ type us, rule ts = some (type, us) → ∃ (hash : MarkLeaf .hash) (vs : List Token), us = hash.token :: vs

theorem Stalls.bind_eq_none {β : Type} {ts : List Token} (h : Stalls ts) {k : TypeExpr → Rule β}
    (hk : ∀ type (hash : MarkLeaf .hash) us, k type (hash.token :: us) = none) : (rule >>= k) ts = none := by
  rw [bind_apply]
  cases hr : rule ts with
  | none => rfl
  | some found =>
      obtain ⟨hash, vs, hvs⟩ := h found.1 found.2 hr
      rw [Option.bind_some, hvs]
      exact hk found.1 hash vs

theorem Stalls.unclosed {ts us : List Token} {types : List TypeExpr} (h : Stalls ts)
    (hread : commaSeparated rule ts = some (types, us)) : mark .rightParen us = none := by
  obtain ⟨type, vs, htype, -⟩ := bind_eq_some.mp hread
  obtain ⟨hash, ws, rfl⟩ := h type vs htype
  have hcomma : (do mark .comma; rule) (hash.token :: ws) = none := by
    rw [bind_apply, mark_of_kind (by rw [hash.kind_eq]; decide), Option.bind_none]
  rw [commaSeparated_of_some htype, many_of_none hcomma] at hread
  cases hread
  exact mark_of_kind (by rw [hash.kind_eq]; decide) ws

end TypeExpr

namespace ShownTree

open TypeExpr

/-- A parameter needs a name, and no name is written. -/
theorem param_eq_none {item : ShownTree}
    (hitem : item.value.hasFunction = true → ∀ us, Stalls (item.tokens ++ us)) {m : Mark} (x : MarkLeaf m)
    (hm : m ∉ [Mark.hash, .doubleColon]) (us : List Token) :
    (do
      let param ← rule
      let _ ← Identifier.lowercase
      return param : Rule TypeExpr) (item.tokens ++ x.token :: us) = none := by
  cases hfunction : item.value.hasFunction with
  | true =>
      refine (hitem hfunction _).bind_eq_none fun param hash vs => ?_
      rw [bind_apply, Identifier.lowercase_of_mark, Option.bind_none]
  | false =>
      rw [bind_apply, rule_of_free hfunction (ends_mark hm x us), Option.bind_some, bind_apply,
        Identifier.lowercase_of_mark, Option.bind_none]

/-- A function type is not read back: its result stalls, or its parameters have no names. -/
theorem functionType_eq_none (word : WordLeaf "function") {result : ShownTree}
    (hresult : result.value.hasFunction = true → ∀ us, Stalls (result.tokens ++ us)) (name : NameLeaf .lowercase)
    (opening : MarkLeaf .leftParen) {us : List Token}
    (hparam : (do
      let param ← rule
      let _ ← Identifier.lowercase
      return param : Rule TypeExpr) us = none) :
    functionType rule (word.token :: (result.tokens ++ name.token :: opening.token :: us)) = none := by
  rw [functionType, bind_apply, keyword_leaf, Option.bind_some]
  cases hfunction : result.value.hasFunction with
  | true =>
      refine (hresult hfunction _).bind_eq_none fun type hash vs => ?_
      rw [bind_apply, Identifier.lowercase_of_mark, Option.bind_none]
  | false =>
      have hparams := commaSeparated_of_none hparam
      rw [bind_apply, rule_of_free hfunction (ends_name name _), Option.bind_some, bind_apply,
        Identifier.lowercase_leaf, Option.bind_some, bind_apply, parenthesized, between, bind_apply, mark_leaf,
        Option.bind_some, bind_apply, hparams]
      rfl

mutual

/-- The rule for types does not get through what is written with a function type. -/
theorem stalls : (shown : ShownTree) → shown.value.hasFunction = true → ∀ us, Stalls (shown.tokens ++ us)
  | .function word result name opening params closing, _, us => by
      have hfunction := functionType_eq_none word (stalls result) name opening (params_eq_none params closing us)
      have hnamed := namedType_of_function word
        (mark_eq_none .doubleColon result (name.token :: opening.token :: (itemsTokens params ++ closing.token :: us)))
      intro type vs hread
      rw [tokens] at hread
      simp only [List.append_assoc, List.cons_append, List.nil_append] at hread
      -- none of the three kinds of type starts here
      rw [rule_eq, orElse_apply, hfunction, Option.none_or, orElse_apply, hnamed, Option.none_or,
        numericType_of_word] at hread
      cases hread
  | .named package name, h, us => by
      rw [value, hasFunction, anyHasFunction] at h
      cases h
  | .applied package name hash opening args closing, h, us => by
      rw [value, hasFunction] at h
      have hargs : typeArgs rule (hash.token :: opening.token :: (itemsTokens args ++ closing.token :: us)) =
          none := by
        rw [typeArgs, bind_apply, mark_leaf, Option.bind_some, parenthesized, between, bind_apply, mark_leaf,
          Option.bind_some, bind_apply]
        cases hread : commaSeparated rule (itemsTokens args ++ closing.token :: us) with
        | none => rfl
        | some found =>
            rw [Option.bind_some, bind_apply, items_unclosed args h _ found.1 found.2 hread, Option.bind_none]
      have hcolons : mark .doubleColon (hash.token :: opening.token :: (itemsTokens args ++ closing.token :: us)) =
          none := mark_of_kind (by rw [hash.kind_eq]; decide) _
      intro type vs hread
      rw [tokens] at hread
      simp only [List.append_assoc, List.cons_append, List.nil_append] at hread
      -- the name is a type without its arguments, and these stay unread
      rw [rule_of_typeArgs_eq_none package name hcolons hargs] at hread
      cases hread
      exact ⟨hash, _, rfl⟩
  | .numeric literal, h, us => by
      rw [value, hasFunction] at h
      cases h

theorem params_eq_none : (items : Separated ShownTree) → (closing : MarkLeaf .rightParen) → (us : List Token) →
    (do
      let param ← rule
      let _ ← Identifier.lowercase
      return param : Rule TypeExpr) (itemsTokens items ++ closing.token :: us) = none
  | .last item, closing, us => by
      rw [itemsTokens]
      exact param_eq_none (stalls item) closing (by decide) us
  | .more item comma rest, closing, us => by
      rw [itemsTokens, List.append_assoc]
      exact param_eq_none (stalls item) comma (by decide) _

/-- Items with a function type among them are not read up to a closing parenthesis. -/
theorem items_unclosed : (items : Separated ShownTree) → anyHasFunction (itemsValues items) = true →
    ∀ us types vs, commaSeparated rule (itemsTokens items ++ us) = some (types, vs) →
      mark .rightParen vs = none
  | .last item, h, us, types, vs, hread => by
      rw [itemsValues, anyHasFunction, anyHasFunction, Bool.or_false] at h
      rw [itemsTokens] at hread
      exact (stalls item h us).unclosed hread
  | .more item comma rest, h, us, types, vs, hread => by
      rw [itemsValues, anyHasFunction, Bool.or_eq_true] at h
      rw [itemsTokens, List.append_assoc, List.cons_append] at hread
      cases hfunction : item.value.hasFunction with
      | true => exact (stalls item hfunction _).unclosed hread
      | false =>
          -- the item is read, and the function type is behind its comma, whether the items go on there or not
          have hrest := items_unclosed rest (h.resolve_left (by rw [hfunction]; exact Bool.false_ne_true))
          rw [commaSeparated_of_some (rule_of_free hfunction (ends_mark (by decide) comma _)),
            many_of_comma rule_shrinks] at hread
          obtain ⟨others, hothers, hpair⟩ := Option.map_eq_some_iff.mp hread
          cases hpair
          rcases Option.or_eq_some_iff.mp hothers with hmore | ⟨-, hstop⟩
          · exact hrest us _ _ hmore
          · cases hstop
            exact mark_of_kind (by rw [comma.kind_eq]; decide) _

end

/-- What is written reads as the type it was written for, unless a function type is in it. -/
theorem complete_eq (shown : ShownTree) :
    complete? rule shown.tokens = if shown.value.hasFunction then none else some shown.value := by
  cases hfunction : shown.value.hasFunction with
  | true =>
      refine Option.eq_none_iff_forall_ne_some.mpr fun type hread => ?_
      have hrule := complete_eq_some.mp hread
      rw [← List.append_nil shown.tokens] at hrule
      obtain ⟨hash, vs, hvs⟩ := shown.stalls hfunction [] type [] hrule
      cases hvs
  | false =>
      have hrule := rule_of_free hfunction ends_nil
      rw [List.append_nil] at hrule
      exact complete_eq_some.mpr hrule

end ShownTree

end BluespecDocs
