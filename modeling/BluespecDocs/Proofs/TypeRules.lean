import BluespecDocs.Proofs.RuleParallel
import BluespecDocs.TypeExpr

/-!
The rules for types and what is written with them: identifiers, literals, arguments, formals, provisos and
dependencies. They read words, literals and five marks only, so what they do depends on the tokens in front
of the first other token and on nothing behind it.
-/

namespace BluespecDocs

namespace Token

/-- Whether a token can stand in a type or a list of types: a word, a literal, or one of the marks around
and between types. -/
def isTypePart (t : Token) : Bool :=
  match t.kind with
  | .word | .number | .based | .fill => true
  | .mark m => m ∈ [.doubleColon, .comma, .hash, .leftParen, .rightParen]
  | _ => false

theorem isTypePart_of_word {t : Token} (h : t.kind = .word) : t.isTypePart = true := by
  rw [isTypePart, h]

theorem isTypePart_of_isMark {m : Mark} {t : Token}
    (hm : m ∈ [Mark.doubleColon, .comma, .hash, .leftParen, .rightParen])
    (h : t.isMark m = true) : t.isTypePart = true := by
  rw [isTypePart, kind_of_isMark h]
  exact decide_eq_true hm

end Token

open Rule

variable {α : Type} {R R₀ S : List Token → List Token → Prop}

namespace TokenReader

theorem rule_shrinks (read : TokenReader α) : Shrinks read.rule := shrinks_token _

theorem rule_parallel {inside : Token → Bool} (h : Lockstep inside R S) (read : TokenReader α)
    (hread : ∀ t t' : Token, t.Alike t' → read t = read t')
    (hinside : ∀ t a, read t = .ok a → inside t = true) : Parallel R S Eq read.rule read.rule := by
  refine parallel_token h (fun t t' halike => ?_) (fun t ht => ?_)
  · rw [hread t t' halike]
  · cases hr : read t with
    | ok a => exact hinside t a hr
    | error e =>
        rw [hr] at ht
        cases ht

/-- A reading with a check behind it. -/
theorem checked_eq_ok {reading : Except Mismatch α} {test : α → Prop} [DecidablePred test] {fault : α → Mismatch}
    {value : α} :
    (do
      let found ← reading
      if test found then return found else throw (fault found)) = Except.ok value ↔
      reading = .ok value ∧ test value := by
  cases reading with
  | error e =>
      constructor
      · intro h
        cases h
      · rintro ⟨h, -⟩
        cases h
  | ok found =>
      change (if test found then Except.ok found else .error _) = _ ↔ _
      split
      · next htest =>
          rw [Except.ok.injEq]
          constructor
          · rintro rfl
            exact ⟨rfl, htest⟩
          · rintro ⟨rfl, -⟩
            rfl
      · next htest =>
          constructor
          · intro h
            cases h
          · rintro ⟨h, h'⟩
            cases h
            exact absurd h' htest

end TokenReader

namespace Identifier

theorem ofToken_eq_ok {t : Token} {ident : Identifier} :
    ofToken t = .ok ident ↔ t.kind = .word ∧ ofName? t.text = some ident := by
  rw [ofToken]
  split
  · next ident' hkind hname =>
      rw [hkind, hname]
      simp
  · next hnot =>
      constructor
      · intro h
        cases h
      · rintro ⟨hkind, hname⟩
        exact absurd hname (hnot ident hkind)

theorem ofToken_congr {t t' : Token} (h : t.Alike t') : ofToken t = ofToken t' := by
  rw [ofToken, ofToken, ← h.1]
  cases hkind : t.kind with
  | comment kind => rfl
  | other => rfl
  | _ => rw [h.2 (by rw [hkind]; rfl)]

theorem ofTokenIn_eq_ok {wanted : LetterCase} {t : Token} {ident : Identifier} :
    ofTokenIn wanted t = .ok ident ↔
      ofToken t = .ok ident ∧ ident.letterCase = wanted := by
  rw [ofTokenIn]
  exact TokenReader.checked_eq_ok

theorem ofTokenIn_congr (wanted : LetterCase) {t t' : Token} (h : t.Alike t') :
    ofTokenIn wanted t = ofTokenIn wanted t' := by
  rw [ofTokenIn, ofTokenIn, ofToken_congr h]

theorem any_shrinks : Shrinks any := TokenReader.rule_shrinks _

theorem capitalized_shrinks : Shrinks capitalized := TokenReader.rule_shrinks _

theorem lowercase_shrinks : Shrinks lowercase := TokenReader.rule_shrinks _

theorem any_parallel (h : Lockstep Token.isTypePart R S) : Parallel R S Eq any any := by
  refine TokenReader.rule_parallel h _ (fun _ _ => ofToken_congr) fun t ident ht => ?_
  obtain ⟨hkind, -⟩ := ofToken_eq_ok.mp ht
  exact Token.isTypePart_of_word hkind

theorem ofTokenIn_parallel (h : Lockstep Token.isTypePart R S) (wanted : LetterCase) :
    Parallel R S Eq (TokenReader.rule (ofTokenIn wanted)) (TokenReader.rule (ofTokenIn wanted)) := by
  refine TokenReader.rule_parallel h _ (fun _ _ => ofTokenIn_congr wanted) fun t ident ht => ?_
  obtain ⟨hread, -⟩ := ofTokenIn_eq_ok.mp ht
  obtain ⟨hkind, -⟩ := ofToken_eq_ok.mp hread
  exact Token.isTypePart_of_word hkind

theorem capitalized_parallel (h : Lockstep Token.isTypePart R S) :
    Parallel R S Eq capitalized capitalized := ofTokenIn_parallel h _

theorem lowercase_parallel (h : Lockstep Token.isTypePart R S) :
    Parallel R S Eq lowercase lowercase := ofTokenIn_parallel h _

end Identifier

namespace IntLiteral

theorem rule_shrinks : Shrinks rule := TokenReader.rule_shrinks _

theorem rule_parallel (h : Lockstep Token.isTypePart R S) : Parallel R S Eq rule rule := by
  refine TokenReader.rule_parallel h _ (fun t t' halike => ?_) (fun t a ht => ?_)
  · rw [ofToken, ofToken, ← halike.1]
    cases hkind : t.kind with
    | comment kind => rfl
    | other => rfl
    | _ => rw [halike.2 (by rw [hkind]; rfl)]
  · rw [ofToken] at ht
    rw [Token.isTypePart]
    split at ht <;> simp_all

end IntLiteral

namespace Rule

theorem typePart_keyword_parallel (h : Lockstep Token.isTypePart R S) (name : String) :
    Parallel R S Eq (keyword name) (keyword name) :=
  parallel_keyword h name fun _ => Token.isTypePart_of_word

theorem typePart_mark_parallel (h : Lockstep Token.isTypePart R S) {m : Mark}
    (hm : m ∈ [Mark.doubleColon, .comma, .hash, .leftParen, .rightParen]) :
    Parallel R S Eq (mark m) (mark m) := parallel_mark h m fun _ => Token.isTypePart_of_isMark hm

theorem Parallel.between {opening closing : Mark} {item item' : Rule α}
    (hopening : Parallel R₀ R Eq (mark opening) (mark opening)) (hitem : Parallel R R Eq item item')
    (hclosing : Parallel R S Eq (mark closing) (mark closing)) :
    Parallel R₀ S Eq (between opening closing item) (between opening closing item') := by
  refine hopening.bind_eq fun _ => ?_
  refine hitem.bind_eq fun value => ?_
  refine hclosing.bind_eq fun _ => ?_
  exact parallel_pure rfl

theorem commaSeparated_parallel (h : Lockstep Token.isTypePart R R) {item item' : Rule α}
    (hs : Shrinks item) (hs' : Shrinks item') (hitem : Parallel R R Eq item item') :
    Parallel R R Eq (commaSeparated item) (commaSeparated item') := by
  have hnext : Parallel R R Eq (mark .comma >>= fun _ => item) (mark .comma >>= fun _ => item') :=
    (typePart_mark_parallel h (by decide)).bind_eq fun _ => hitem
  have hshrinks : Shrinks (mark .comma >>= fun _ => item) := (shrinks_mark .comma).bind fun _ => hs.keeps
  have hshrinks' : Shrinks (mark .comma >>= fun _ => item') := (shrinks_mark .comma).bind fun _ => hs'.keeps
  refine hitem.bind_eq fun first => ?_
  refine (hnext.many hshrinks hshrinks').bind_eq fun others => ?_
  exact parallel_pure rfl

theorem parenthesized_parallel (h₀ : Lockstep Token.isTypePart R₀ R) (h : Lockstep Token.isTypePart R R)
    {item item' : Rule α} (hs : Shrinks item) (hs' : Shrinks item') (hitem : Parallel R R Eq item item') :
    Parallel R₀ R Eq (parenthesized item) (parenthesized item') := by
  have hopening : Parallel R₀ R Eq (mark .leftParen) (mark .leftParen) := typePart_mark_parallel h₀ (by decide)
  have hclosing : Parallel R R Eq (mark .rightParen) (mark .rightParen) := typePart_mark_parallel h (by decide)
  exact hopening.between (commaSeparated_parallel h hs hs' hitem) hclosing

end Rule

namespace TypeExpr

section

variable {type type' : Rule TypeExpr}

theorem functionParam_shrinks (h : Shrinks type) : Shrinks (do
    let param ← type
    let _ ← Identifier.lowercase
    return param) := by
  refine h.bind fun param => ?_
  refine Identifier.lowercase_shrinks.keeps.bind fun name => ?_
  exact keeps_pure param

theorem functionType_shrinks (h : Shrinks type) : Shrinks (functionType type) := by
  refine (shrinks_keyword "function").bind fun _ => ?_
  refine h.keeps.bind fun result => ?_
  refine Identifier.lowercase_shrinks.keeps.bind fun name => ?_
  refine (functionParam_shrinks h).parenthesized.keeps.bind fun params => ?_
  exact keeps_pure _

theorem qualifier_shrinks : Shrinks qualifier := by
  refine Identifier.any_shrinks.bind fun package => ?_
  refine (shrinks_mark .doubleColon).keeps.bind fun _ => ?_
  exact keeps_pure package

theorem typeName_shrinks : Shrinks typeName := by
  refine Identifier.any_shrinks.bind fun name => ?_
  split
  · exact shrinks_failure.keeps
  · exact keeps_pure name

theorem typeArgs_shrinks (h : Shrinks type) : Shrinks (typeArgs type) := by
  refine (shrinks_mark .hash).bind fun _ => ?_
  exact h.parenthesized.keeps

theorem namedType_shrinks (h : Shrinks type) : Shrinks (namedType type) := by
  refine qualifier_shrinks.keeps.optional.bind_shrinks fun package => ?_
  refine typeName_shrinks.bind fun name => ?_
  refine (typeArgs_shrinks h).keeps.orEmpty.bind fun args => ?_
  exact keeps_pure _

theorem numericType_shrinks : Shrinks numericType := by
  refine IntLiteral.rule_shrinks.bind fun literal => ?_
  exact keeps_pure _

theorem functionType_parallel (h₀ : Lockstep Token.isTypePart R₀ R) (h : Lockstep Token.isTypePart R R)
    (hs : Shrinks type) (hs' : Shrinks type') (htype : Parallel R R Eq type type') :
    Parallel R₀ R Eq (functionType type) (functionType type') := by
  have hname := Identifier.lowercase_parallel h
  have hparam := htype.bind_eq fun param => hname.bind_eq fun _ => parallel_pure (rfl : param = param)
  have hparams := parenthesized_parallel h h (functionParam_shrinks hs) (functionParam_shrinks hs') hparam
  refine (typePart_keyword_parallel h₀ "function").bind_eq fun _ => ?_
  refine htype.bind_eq fun result => ?_
  refine hname.bind_eq fun name => ?_
  refine hparams.bind_eq fun params => ?_
  exact parallel_pure rfl

theorem qualifier_parallel (h : Lockstep Token.isTypePart R R) : Parallel R R Eq qualifier qualifier := by
  refine (Identifier.any_parallel h).bind_eq fun package => ?_
  refine (typePart_mark_parallel h (by decide)).bind_eq fun _ => ?_
  exact parallel_pure rfl

theorem typeName_parallel (h : Lockstep Token.isTypePart R₀ R) : Parallel R₀ R Eq typeName typeName := by
  refine (Identifier.any_parallel h).bind_eq fun name => ?_
  split
  · exact parallel_failure
  · exact parallel_pure rfl

theorem typeArgs_parallel (h : Lockstep Token.isTypePart R R) (hs : Shrinks type) (hs' : Shrinks type')
    (htype : Parallel R R Eq type type') : Parallel R R Eq (typeArgs type) (typeArgs type') := by
  refine (typePart_mark_parallel h (by decide)).bind_eq fun _ => ?_
  exact parenthesized_parallel h h hs hs' htype

theorem namedType_parallel (h₀ : Lockstep Token.isTypePart R₀ R₀) (h₁ : Lockstep Token.isTypePart R₀ R)
    (h : Lockstep Token.isTypePart R R) (hs : Shrinks type) (hs' : Shrinks type')
    (htype : Parallel R R Eq type type') : Parallel R₀ R Eq (namedType type) (namedType type') := by
  refine (qualifier_parallel h₀).optional.bind_eq fun package => ?_
  refine (typeName_parallel h₁).bind_eq fun name => ?_
  refine (typeArgs_parallel h hs hs' htype).orEmpty.bind_eq fun args => ?_
  exact parallel_pure rfl

theorem numericType_parallel (h : Lockstep Token.isTypePart R₀ R) :
    Parallel R₀ R Eq numericType numericType := by
  refine (IntLiteral.rule_parallel h).bind_eq fun literal => ?_
  exact parallel_pure rfl

/-- One level of a type runs in parallel with another if the levels below do. -/
theorem level_parallel (h₀ : Lockstep Token.isTypePart R₀ R₀) (h₁ : Lockstep Token.isTypePart R₀ R)
    (h : Lockstep Token.isTypePart R R) (hs : Shrinks type) (hs' : Shrinks type')
    (htype : Parallel R R Eq type type') :
    Parallel R₀ R Eq (functionType type <|> namedType type <|> numericType)
      (functionType type' <|> namedType type' <|> numericType) := by
  have hfunction := functionType_parallel h₁ h hs hs' htype
  have hnamed := namedType_parallel h₀ h₁ h hs hs' htype
  have hnumeric := numericType_parallel h₁
  exact hfunction.orElse (hnamed.orElse hnumeric)

end

theorem descends :
    Descends fun type : Rule TypeExpr => functionType type <|> namedType type <|> numericType where
  shrinks _ h := (functionType_shrinks h).orElse ((namedType_shrinks h).orElse numericType_shrinks)
  parallel n _ _ hs hs' h := level_parallel (lockstep_below (Nat.le_succ _) _)
    (lockstep_below (Nat.le_refl _) _) (lockstep_below (Nat.le_succ n) _) hs hs' h

theorem rule_shrinks : Shrinks rule := descends.recursive_shrinks

theorem rule_parallel (h : Lockstep Token.isTypePart R R) : Parallel R R Eq rule rule :=
  descends.recursive_parallel descends fun _ _ hs hs' htype => level_parallel h h h hs hs' htype

theorem provisosRule_keeps : Keeps provisosRule := by
  refine Keeps.orEmpty (Shrinks.keeps ?_)
  refine (shrinks_keyword "provisos").bind fun _ => ?_
  exact rule_shrinks.parenthesized.keeps

theorem provisosRule_parallel (h : Lockstep Token.isTypePart R R) :
    Parallel R R Eq provisosRule provisosRule := by
  refine Parallel.orEmpty ?_
  refine (typePart_keyword_parallel h "provisos").bind_eq fun _ => ?_
  exact parenthesized_parallel h h rule_shrinks rule_shrinks (rule_parallel h)

end TypeExpr

namespace TypeFormal

theorem rule_shrinks : Shrinks rule := by
  refine (shrinks_keyword "numeric").keeps.optional.bind_shrinks fun numeric => ?_
  refine (shrinks_keyword "type").bind fun _ => ?_
  refine Identifier.lowercase_shrinks.keeps.bind fun name => ?_
  exact keeps_pure _

theorem rule_parallel (h : Lockstep Token.isTypePart R R) : Parallel R R Eq rule rule := by
  refine (typePart_keyword_parallel h "numeric").optional.bind_eq fun numeric => ?_
  refine (typePart_keyword_parallel h "type").bind_eq fun _ => ?_
  refine (Identifier.lowercase_parallel h).bind_eq fun name => ?_
  exact parallel_pure rfl

theorem listRule_shrinks : Shrinks listRule := by
  refine (shrinks_mark .hash).bind fun _ => ?_
  exact rule_shrinks.parenthesized.keeps

theorem listRule_parallel (h : Lockstep Token.isTypePart R R) : Parallel R R Eq listRule listRule := by
  refine (typePart_mark_parallel h (by decide)).bind_eq fun _ => ?_
  exact parenthesized_parallel h h rule_shrinks rule_shrinks (rule_parallel h)

end TypeFormal

namespace TypeDependency

theorem side_shrinks : Shrinks side := by
  refine Shrinks.orElse ?_ Identifier.lowercase_shrinks.parenthesized
  refine Identifier.lowercase_shrinks.bind fun name => ?_
  exact keeps_pure [name]

theorem side_parallel (h : Lockstep Token.isTypePart R R) : Parallel R R Eq side side := by
  have hname := Identifier.lowercase_parallel h
  have hnames := parenthesized_parallel h h Identifier.lowercase_shrinks Identifier.lowercase_shrinks hname
  refine Parallel.orElse ?_ hnames
  refine hname.bind_eq fun name => ?_
  exact parallel_pure rfl

theorem rule_shrinks : Shrinks rule := by
  refine side_shrinks.bind fun determining => ?_
  refine (shrinks_keyword "determines").keeps.bind fun _ => ?_
  refine side_shrinks.keeps.bind fun determined => ?_
  exact keeps_pure _

theorem rule_parallel (h : Lockstep Token.isTypePart R R) : Parallel R R Eq rule rule := by
  refine (side_parallel h).bind_eq fun determining => ?_
  refine (typePart_keyword_parallel h "determines").bind_eq fun _ => ?_
  refine (side_parallel h).bind_eq fun determined => ?_
  exact parallel_pure rfl

theorem listRule_shrinks : Shrinks listRule := by
  refine (shrinks_keyword "dependencies").bind fun _ => ?_
  exact rule_shrinks.parenthesized.keeps

theorem listRule_parallel (h : Lockstep Token.isTypePart R R) : Parallel R R Eq listRule listRule := by
  refine (typePart_keyword_parallel h "dependencies").bind_eq fun _ => ?_
  exact parenthesized_parallel h h rule_shrinks rule_shrinks (rule_parallel h)

end TypeDependency

end BluespecDocs
