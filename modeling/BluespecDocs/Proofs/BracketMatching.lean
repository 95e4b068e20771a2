import BluespecDocs.Proofs.FunctionCut

/-!
Functions are brackets. In a token list made of headers, closing words and other tokens, reading a function
is bracket matching: it succeeds at a header just where that header has a matching closing word, reads up to
that word with its label, and finds inside it the tree of the pairs of brackets there. A header without a
matching closing word is tried to the end of the list and then passed over token by token, and all headers
around it are unmatched too.
-/

namespace BluespecDocs

open Rule

/-- A header, a closing word with its label, or any other token. -/
inductive Bracket where
  | opener (header : FunctionHeader) (tokens : List Token)
  | closer (word : Token) (label : List Token)
  | filler (t : Token)

namespace Bracket

/-- The tokens of a bracket. -/
def tokens : Bracket → List Token
  | opener _ q => q
  | closer word label => word :: label
  | filler t => [t]

/-- Whether a colon and a lower-case name stand in front. -/
def startsWithLabel : List Token → Bool
  | colon :: name :: _ => colon.isMark .colon && name.isNameIn .lowercase
  | _ => false

/-- What a bracket must be in front of the tokens `us`: a complete header without a closing word in it; a
closing word with the label that follows it, if one does; or a token that is neither of the two words. -/
def FitsBefore (us : List Token) : Bracket → Prop
  | opener header q => FunctionHeader.rule q = some (header, []) ∧ ∀ t ∈ q, t.isWord "endfunction" = false
  | closer word label => word.isWord "endfunction" = true ∧
      (label = [] ∧ startsWithLabel us = false ∨ label.length = 2 ∧ startsWithLabel label = true)
  | filler t => t.isWord "function" = false ∧ t.isWord "endfunction" = false

/-- Brackets each of which is in front of the others what it must be. -/
def AllFit : List Bracket → Prop
  | [] => True
  | b :: bs => b.FitsBefore (bs.flatMap tokens) ∧ AllFit bs

/-- The function that a pair of brackets encloses. -/
def enclosed (header : FunctionHeader) (q : List Token) (inner : List Bracket) (word : Token)
    (label : List Token) (nested : List Function) : Function :=
  ⟨header, spanRead (q ++ (inner.flatMap tokens ++ word :: label)) [], nested⟩

/-- Brackets that match, with the tree of the pairs. -/
inductive Balanced : List Bracket → List Function → Prop
  | nil : Balanced [] []
  | filler {t : Token} {bs : List Bracket} {fs : List Function} (rest : Balanced bs fs) :
      Balanced (filler t :: bs) fs
  | pair {header : FunctionHeader} {q : List Token} {inner bs : List Bracket} {word : Token}
      {label : List Token} {nested fs : List Function} (inside : Balanced inner nested)
      (rest : Balanced bs fs) :
      Balanced (opener header q :: (inner ++ closer word label :: bs))
        (enclosed header q inner word label nested :: fs)

theorem AllFit.right {bs₁ bs₂ : List Bracket} (h : AllFit (bs₁ ++ bs₂)) : AllFit bs₂ := by
  induction bs₁ with
  | nil => exact h
  | cons b bs₁ ih => exact ih h.2

theorem afterLabel_of_not_startsWithLabel {us : List Token} (h : startsWithLabel us = false) :
    Token.afterLabel .lowercase us = us := by
  match us with
  | [] => rfl
  | [t] => rfl
  | colon :: name :: rest =>
      rw [startsWithLabel] at h
      rw [Token.afterLabel, h, if_neg (by decide)]

theorem afterLabel_append {label : List Token} (hlength : label.length = 2) (h : startsWithLabel label = true)
    (us : List Token) : Token.afterLabel .lowercase (label ++ us) = us := by
  match label, hlength with
  | [colon, name], _ =>
      rw [startsWithLabel] at h
      rw [List.cons_append, List.cons_append, List.nil_append, Token.afterLabel, if_pos h]

/-- A closing word with its label ends a body. -/
theorem bodyAndClose_closer {word : Token} {label us : List Token} (h : (closer word label).FitsBefore us) :
    Function.bodyAndClose (word :: label ++ us) = some ([], us) := by
  obtain ⟨hword, hlabel⟩ := h
  have hafter : Token.afterLabel .lowercase (label ++ us) = us := by
    rcases hlabel with ⟨rfl, hus⟩ | ⟨hlength, hlabel⟩
    · exact afterLabel_of_not_startsWithLabel hus
    · exact afterLabel_append hlength hlabel us
  rw [List.cons_append, Function.bodyAndClose_closing hword, hafter]

theorem rule_filler {t : Token} (ht : t.isWord "function" = false) (us : List Token) :
    Function.rule (t :: us) = none := by
  cases hr : Function.rule (t :: us) with
  | none => rfl
  | some found =>
      obtain ⟨t', us', hcons, word, hmem, hword⟩ := Function.rule_startsWith _ found hr
      cases hcons
      rw [List.mem_singleton.mp hmem, ht] at hword
      cases hword

theorem rule_opener {header : FunctionHeader} {q us : List Token} (h : (opener header q).FitsBefore us) :
    FunctionHeader.rule (q ++ us) = some (header, us) := by
  obtain ⟨m, s, rfl, -, hs⟩ := FunctionHeader.headerOver.shape h.1
  rw [FunctionHeader.headerOver.append ⟨s, by simp, Token.not_isTypePart_of_semicolon hs⟩, h.1]
  rfl

/-- A header that is not closed is passed over. -/
theorem bodyAndClose_opener {header : FunctionHeader} {q us : List Token} (h : (opener header q).FitsBefore us)
    (hnone : Function.bodyAndClose us = none) : Function.bodyAndClose (q ++ us) = none := by
  obtain ⟨hrule, hwords⟩ := h
  obtain ⟨m, s, rfl, hm, hs⟩ := FunctionHeader.headerOver.shape hrule
  rw [List.append_assoc, List.singleton_append]
  clear hrule
  induction m with
  | nil =>
      have hfiller := Function.rule_inside_header hm hs hnone
      rw [List.nil_append] at hfiller ⊢
      rw [Function.bodyAndClose_filler hfiller (Token.isWord_of_isMark hs _), hnone]
  | cons t m ih =>
      have hfiller : Function.rule (t :: (m ++ s :: us)) = none := Function.rule_inside_header hm hs hnone
      rw [List.cons_append, Function.bodyAndClose_filler hfiller (hwords t List.mem_cons_self)]
      exact ih (fun u hu => hwords u (List.mem_cons_of_mem t hu)) fun u hu => hm u (List.mem_cons_of_mem t hu)

/-- A header with the body that is closed behind it is a function. -/
theorem rule_of_bodyAndClose {header : FunctionHeader} {q label : List Token} {inner after : List Bracket}
    {word : Token} {nested : List Function}
    (h : (opener header q).FitsBefore ((inner ++ closer word label :: after).flatMap tokens))
    (hclose : Function.bodyAndClose ((inner ++ closer word label :: after).flatMap tokens) =
      some (nested, after.flatMap tokens)) :
    Function.rule (q ++ (inner ++ closer word label :: after).flatMap tokens) =
      some (enclosed header q inner word label nested, after.flatMap tokens) := by
  refine Function.rule_eq_some.mpr ⟨header, _, nested, rule_opener h, hclose, ?_⟩
  have hread : q ++ (inner ++ closer word label :: after).flatMap tokens =
      q ++ (inner.flatMap tokens ++ word :: label) ++ after.flatMap tokens := by
    rw [List.flatMap_append, List.flatMap_cons, tokens, List.append_assoc, List.append_assoc]
  rw [hread, spanRead_append_nil (by simp), enclosed]

/-- Balanced brackets in front of a closing word are the body that it closes. -/
theorem bodyAndClose_of_balanced {inner after : List Bracket} {word : Token} {label : List Token}
    {nested : List Function} (hbalanced : Balanced inner nested)
    (h : AllFit (inner ++ closer word label :: after)) :
    Function.bodyAndClose ((inner ++ closer word label :: after).flatMap tokens) =
      some (nested, after.flatMap tokens) := by
  induction hbalanced generalizing word label after with
  | nil => exact bodyAndClose_closer h.1
  | @filler t bs fs _ ih =>
      obtain ⟨⟨hopen, hclose⟩, hrest⟩ := h
      rw [List.cons_append, List.flatMap_cons, tokens, List.singleton_append,
        Function.bodyAndClose_filler (rule_filler hopen _) hclose]
      exact ih hrest
  | @pair header q inner bs word' label' nested fs _ _ ihinside ihrest =>
      rw [List.cons_append, List.append_assoc, List.cons_append] at h ⊢
      have hinside := ihinside h.2
      have hrest := ihrest (AllFit.right h.2).2
      rw [List.flatMap_cons, tokens, Function.bodyAndClose_nested (rule_of_bodyAndClose h.1 hinside), hrest]
      rfl

/-- What is in front of the closing word of a body is balanced. -/
theorem exists_balanced_of_bodyAndClose {bs : List Bracket} {nested : List Function} {us : List Token}
    (h : AllFit bs) (hclose : Function.bodyAndClose (bs.flatMap tokens) = some (nested, us)) :
    ∃ inner word label after, bs = inner ++ closer word label :: after ∧ Balanced inner nested ∧
      us = after.flatMap tokens := by
  induction hlength : bs.length using Nat.strongRecOn generalizing bs nested us with
  | ind n ih =>
    subst hlength
    cases bs with
    | nil =>
        rw [List.flatMap_nil, Function.bodyAndClose_nil] at hclose
        cases hclose
    | cons b bs =>
        rw [List.flatMap_cons] at hclose
        cases b with
        | filler t =>
            rw [tokens, List.singleton_append,
              Function.bodyAndClose_filler (rule_filler h.1.1 _) h.1.2] at hclose
            obtain ⟨inner, word, label, after, rfl, hbalanced, hus⟩ := ih _ (Nat.lt_succ_self _) h.2 hclose rfl
            exact ⟨filler t :: inner, word, label, after, rfl, hbalanced.filler, hus⟩
        | closer word label =>
            rw [tokens, bodyAndClose_closer h.1] at hclose
            cases hclose
            exact ⟨[], word, label, bs, rfl, .nil, rfl⟩
        | opener header q =>
            rw [tokens] at hclose
            -- What closes a body behind this header closes the header first, so there are two closing words.
            cases hinside : Function.bodyAndClose (bs.flatMap tokens) with
            | none =>
                rw [bodyAndClose_opener h.1 hinside] at hclose
                cases hclose
            | some found =>
                obtain ⟨inner, word, label, after, rfl, hbalanced, -⟩ :=
                  ih _ (Nat.lt_succ_self _) h.2 hinside rfl
                have hpair := rule_of_bodyAndClose h.1 (bodyAndClose_of_balanced hbalanced h.2)
                rw [Function.bodyAndClose_nested hpair] at hclose
                obtain ⟨others, hothers, heq⟩ := Option.map_eq_some_iff.mp hclose
                obtain ⟨rfl, rfl⟩ := Prod.mk.inj heq
                have hlt : after.length <
                    (opener header q :: (inner ++ closer word label :: after)).length := by
                  simp only [List.length_cons, List.length_append]
                  omega
                obtain ⟨inner', word', label', after', rfl, hbalanced', hus⟩ :=
                  ih _ hlt (AllFit.right h.2).2 hothers rfl
                exact ⟨opener header q :: (inner ++ closer word label :: inner'), word', label', after',
                  by simp, hbalanced.pair hbalanced', hus⟩

theorem rule_eq_some_iff {header : FunctionHeader} {q : List Token} {rest : List Bracket}
    (h : AllFit (opener header q :: rest)) (f : Function) (us : List Token) :
    Function.rule ((opener header q :: rest).flatMap tokens) = some (f, us) ↔
      ∃ inner word label after nested, rest = inner ++ closer word label :: after ∧
        Balanced inner nested ∧ f = enclosed header q inner word label nested ∧ us = after.flatMap tokens := by
  rw [List.flatMap_cons, tokens]
  constructor
  · intro hrule
    obtain ⟨header', vs, nested, hheader, hclose, rfl⟩ := Function.rule_eq_some.mp hrule
    rw [rule_opener h.1] at hheader
    cases hheader
    obtain ⟨inner, word, label, after, rfl, hbalanced, rfl⟩ := exists_balanced_of_bodyAndClose h.2 hclose
    have hpair := Option.some.inj (hrule.symm.trans (rule_of_bodyAndClose h.1 hclose))
    exact ⟨inner, word, label, after, nested, rfl, hbalanced, (Prod.mk.inj hpair).1, rfl⟩
  · rintro ⟨inner, word, label, after, nested, rfl, hbalanced, rfl, rfl⟩
    exact rule_of_bodyAndClose h.1 (bodyAndClose_of_balanced hbalanced h.2)

/-- Reading a function at a header is bracket matching: it gives the pair that the header opens, with the tree
inside, and nothing if no closing word matches the header. -/
theorem rule_iff_matched {header : FunctionHeader} {q : List Token} {rest : List Bracket}
    (h : AllFit (opener header q :: rest)) :
    (∀ f us, Function.rule ((opener header q :: rest).flatMap tokens) = some (f, us) ↔
      ∃ inner word label after nested, rest = inner ++ closer word label :: after ∧
        Balanced inner nested ∧ f = enclosed header q inner word label nested ∧ us = after.flatMap tokens) ∧
    (Function.rule ((opener header q :: rest).flatMap tokens) = none ↔
      ¬ ∃ inner word label after nested, rest = inner ++ closer word label :: after ∧
        Balanced inner nested) := by
  refine ⟨rule_eq_some_iff h, ?_⟩
  constructor
  · rintro hnone ⟨inner, word, label, after, nested, hrest, hbalanced⟩
    have hsome := (rule_eq_some_iff h _ _).mpr ⟨inner, word, label, after, nested, hrest, hbalanced, rfl, rfl⟩
    rw [hnone] at hsome
    cases hsome
  · intro hunmatched
    cases hrule : Function.rule ((opener header q :: rest).flatMap tokens) with
    | none => rfl
    | some found =>
        obtain ⟨inner, word, label, after, nested, hrest, hbalanced, -⟩ := (rule_eq_some_iff h _ _).mp hrule
        exact absurd ⟨inner, word, label, after, nested, hrest, hbalanced⟩ hunmatched

/-- The tokens of a header that is only a name. -/
def nameHeader (name : String) (start : Nat) : List Token :=
  [⟨.word, "function", ⟨start, start + 8⟩⟩, ⟨.word, name, ⟨start + 9, start + 10⟩⟩,
    ⟨.mark .semicolon, ";", ⟨start + 10, start + 11⟩⟩]

/-- A function with a labelled one inside, in front of a header that is never closed. -/
theorem rule_iff_matched_nested :
    Function.rule (nameHeader "f" 0 ++ nameHeader "g" 12 ++
        [⟨.word, "endfunction", ⟨24, 35⟩⟩, ⟨.mark .colon, ":", ⟨35, 36⟩⟩, ⟨.word, "g", ⟨36, 37⟩⟩,
          ⟨.word, "endfunction", ⟨38, 49⟩⟩] ++ nameHeader "h" 50) =
      some (⟨⟨⟨"f", .lowercase⟩, none, [], []⟩, ⟨0, 49⟩, [⟨⟨⟨"g", .lowercase⟩, none, [], []⟩, ⟨12, 37⟩, []⟩]⟩,
        nameHeader "h" 50) := by
  have hfit : AllFit [opener ⟨⟨"f", .lowercase⟩, none, [], []⟩ (nameHeader "f" 0),
      opener ⟨⟨"g", .lowercase⟩, none, [], []⟩ (nameHeader "g" 12),
      closer ⟨.word, "endfunction", ⟨24, 35⟩⟩ [⟨.mark .colon, ":", ⟨35, 36⟩⟩, ⟨.word, "g", ⟨36, 37⟩⟩],
      closer ⟨.word, "endfunction", ⟨38, 49⟩⟩ [],
      opener ⟨⟨"h", .lowercase⟩, none, [], []⟩ (nameHeader "h" 50)] :=
    ⟨⟨rfl, by decide⟩, ⟨rfl, by decide⟩, ⟨by decide, .inr (by decide)⟩, ⟨by decide, .inl (by decide)⟩,
      ⟨rfl, by decide⟩, trivial⟩
  exact ((rule_iff_matched hfit).1 _ _).mpr
    ⟨[_, _], _, _, [_], _, rfl, @Balanced.pair _ _ [] [] _ _ [] [] .nil .nil, rfl, rfl⟩

end Bracket

end BluespecDocs
