import BluespecDocs.Proofs.RuleParallel
import BluespecDocs.Proofs.SyntaxTrees
import Mathlib.Logic.Equiv.Option

/-!
Rules that read a grammar. A rule reads the trees of a type if it applies to the tokens of each tree, whatever
stands behind them, and to nothing else, and if no two trees start one token list. What may stand behind a
tree is limited where the rule would read on. The property passes from the parts of a rule to the whole: a
sequence reads pairs of trees, a choice reads a sum, a repetition reads lists.
-/

namespace BluespecDocs

theorem MarkLeaf.kind_eq {m : Mark} (x : MarkLeaf m) : x.token.kind = .mark m :=
  Token.kind_of_isMark (Option.ite_none_right_eq_some.mp x.reads).1

theorem WordLeaf.isWord {name : String} (x : WordLeaf name) : x.token.isWord name = true :=
  (Option.ite_none_right_eq_some.mp x.reads).1

theorem WordLeaf.text_eq {name : String} (x : WordLeaf name) : x.token.text = name := Token.text_of_isWord x.isWord

namespace Separated

variable {α τ : Type}

/-- The first item, and the others with the commas in front of them. -/
def toPair : Separated τ → τ × List (MarkLeaf .comma × τ)
  | last item => (item, [])
  | more item comma rest => (item, (comma, rest.toPair.1) :: rest.toPair.2)

/-- Items from the first and the others. -/
def ofPair : τ → List (MarkLeaf .comma × τ) → Separated τ
  | item, [] => last item
  | item, (comma, next) :: others => more item comma (ofPair next others)

/-- Items with commas between them are a first item and others that have a comma in front. -/
def equivPair : Separated τ ≃ τ × List (MarkLeaf .comma × τ) where
  toFun := toPair
  invFun p := ofPair p.1 p.2
  left_inv items := by
    induction items with
    | last item => rfl
    | more item comma rest ih => exact congrArg (more item comma) ih
  right_inv := by
    rintro ⟨item, others⟩
    induction others generalizing item with
    | nil => rfl
    | cons next others ih =>
        have hrest : (ofPair next.2 others).toPair = (next.2, others) := ih next.2
        change (ofPair item ((next.1, next.2) :: others)).toPair = _
        rw [ofPair, toPair, hrest]

theorem tokens_eq (itemTokens : τ → List Token) (items : Separated τ) :
    items.tokens itemTokens =
      itemTokens items.toPair.1 ++ items.toPair.2.flatMap fun p => p.1.token :: itemTokens p.2 := by
  induction items with
  | last item => rw [tokens, toPair, List.flatMap_nil, List.append_nil]
  | more item comma rest ih => rw [tokens, toPair, ih, List.flatMap_cons, List.cons_append]

theorem values_eq (itemValue : τ → α) (items : Separated τ) :
    items.values itemValue = itemValue items.toPair.1 :: items.toPair.2.map fun p => itemValue p.2 := by
  induction items with
  | last item => rfl
  | more item comma rest ih => rw [values, toPair, ih, List.map_cons]

end Separated

namespace Rule

variable {α β τ σ ρ : Type} {n : Nat} {follow follow' : List Token → Prop}

/-- On fewer than `n` tokens the rule reads exactly the trees of type `τ`, where `follow` holds of what is
behind them. The bound is what an induction over the depth of the trees needs. -/
structure Reads (n : Nat) (follow : List Token → Prop) (tokens : τ → List Token) (value : τ → α)
    (r : Rule α) : Prop where
  complete : ∀ x us, (tokens x ++ us).length < n → follow us → r (tokens x ++ us) = some (value x, us)
  sound : ∀ ts a us, ts.length < n → r ts = some (a, us) → ∃ x, ts = tokens x ++ us ∧ value x = a
  unique : ∀ x y us vs, (tokens x ++ us).length < n → follow us → follow vs →
    tokens x ++ us = tokens y ++ vs → x = y

variable {tokens : τ → List Token} {value : τ → α} {r q : Rule α}

namespace Reads

theorem mono {m : Nat} (h : Reads n follow tokens value r) (hmn : m ≤ n)
    (hfollow : ∀ us, follow' us → follow us) : Reads m follow' tokens value r where
  complete x us hlength hus := h.complete x us (by omega) (hfollow us hus)
  sound ts a us hlength := h.sound ts a us (by omega)
  unique x y us vs hlength hus hvs := h.unique x y us vs (by omega) (hfollow us hus) (hfollow vs hvs)

theorem congr (h : Reads n follow tokens value r) (heq : ∀ ts, q ts = r ts) :
    Reads n follow tokens value q := by
  obtain rfl : q = r := funext heq
  exact h

/-- Trees of another make that have the same tokens and values are read by the same rule. -/
theorem of_equiv (h : Reads n follow tokens value r) (e : σ ≃ τ) {tokens' : σ → List Token} {value' : σ → α}
    (htokens : ∀ x, tokens' x = tokens (e x)) (hvalue : ∀ x, value' x = value (e x)) :
    Reads n follow tokens' value' r where
  complete x us hlength hus := by
    rw [htokens] at hlength ⊢
    rw [hvalue]
    exact h.complete (e x) us hlength hus
  sound ts a us hlength hr := by
    obtain ⟨x, rfl, rfl⟩ := h.sound ts a us hlength hr
    exact ⟨e.symm x, by rw [htokens, e.apply_symm_apply], by rw [hvalue, e.apply_symm_apply]⟩
  unique x y us vs hlength hus hvs hxy := by
    rw [htokens] at hlength
    rw [htokens, htokens] at hxy
    exact e.injective (h.unique (e x) (e y) us vs hlength hus hvs hxy)

theorem map (hr : Reads n follow tokens value r) (f : α → β) :
    Reads n follow tokens (fun x => f (value x)) (f <$> r) where
  complete x us hlength hus := by rw [map_apply, hr.complete x us hlength hus, Option.map_some]
  sound ts b us hlength h := by
    rw [map_apply] at h
    obtain ⟨⟨a, vs⟩, hread, hpair⟩ := Option.map_eq_some_iff.mp h
    cases hpair
    obtain ⟨x, rfl, rfl⟩ := hr.sound ts a _ hlength hread
    exact ⟨x, rfl, rfl⟩
  unique := hr.unique

end Reads

theorem reads_zero : Reads 0 follow tokens value r where
  complete _ _ hlength := absurd hlength (Nat.not_lt_zero _)
  sound _ _ _ hlength := absurd hlength (Nat.not_lt_zero _)
  unique _ _ _ _ hlength := absurd hlength (Nat.not_lt_zero _)

theorem reads_pure (a : α) : Reads n follow (fun _ : Unit => []) (fun _ => a) (pure a : Rule α) where
  complete _ _ _ _ := rfl
  sound _ _ _ _ h := by
    cases h
    exact ⟨(), rfl, rfl⟩
  unique _ _ _ _ _ _ _ _ := rfl

theorem Leaf.eq_of_token {read : Token → Option α} {x y : Leaf read} (h : x.token = y.token) : x = y := by
  obtain ⟨t, a, hx⟩ := x
  obtain ⟨u, b, hy⟩ := y
  obtain rfl : t = u := h
  obtain rfl : a = b := Option.some.inj (hx.symm.trans hy)
  rfl

theorem token_eq_some {read : Token → Option α} {ts us : List Token} {a : α} :
    token read ts = some (a, us) ↔ ∃ x : Leaf read, ts = x.token :: us ∧ x.value = a := by
  constructor
  · intro h
    cases ts with
    | nil => cases h
    | cons t ts =>
        obtain ⟨b, hb, hpair⟩ := Option.map_eq_some_iff.mp h
        cases hpair
        exact ⟨⟨t, a, hb⟩, rfl, rfl⟩
  · rintro ⟨x, rfl, rfl⟩
    rw [token_cons, x.reads, Option.map_some]

theorem mark_leaf {m : Mark} (x : MarkLeaf m) (us : List Token) : mark m (x.token :: us) = some ((), us) :=
  token_eq_some.mpr ⟨x, rfl, rfl⟩

theorem keyword_leaf {name : String} (x : WordLeaf name) (us : List Token) :
    keyword name (x.token :: us) = some ((), us) :=
  token_eq_some.mpr ⟨x, rfl, rfl⟩

theorem commaSeparated_of_none {ts : List Token} (h : r ts = none) : commaSeparated r ts = none := by
  rw [commaSeparated, Reader.separated, bind_apply, h, Option.bind_none]

theorem reads_token (read : Token → Option α) :
    Reads n follow (fun x : Leaf read => [x.token]) Leaf.value (token read) where
  complete x _ _ _ := token_eq_some.mpr ⟨x, rfl, rfl⟩
  sound _ _ _ _ h := token_eq_some.mp h
  unique _ _ _ _ _ _ _ hxy := Leaf.eq_of_token (List.cons.inj hxy).1

theorem reads_mark_return (m : Mark) (a : α) :
    Reads n follow (fun x : MarkLeaf m => [x.token]) (fun _ => a) (do mark m; return a) :=
  (reads_token _).map fun _ => a

namespace Reads

variable {tokens' : σ → List Token}

/-- A sequence reads pairs of trees, if the first tree may stand in front of the second. -/
theorem bind {value' : α → σ → β} {k : α → Rule β} (hr : Reads n follow tokens value r)
    (hk : ∀ a, Reads n follow' tokens' (value' a) (k a))
    (hfollow : ∀ y us, follow' us → follow (tokens' y ++ us)) :
    Reads n follow' (fun p : τ × σ => tokens p.1 ++ tokens' p.2) (fun p => value' (value p.1) p.2)
      (r >>= k) where
  complete := by
    rintro ⟨x, y⟩ us hlength hus
    dsimp only at hlength ⊢
    rw [List.append_assoc] at hlength ⊢
    rw [bind_apply, hr.complete x _ hlength (hfollow y us hus), Option.bind_some]
    rw [List.length_append] at hlength
    exact (hk _).complete y us (by omega) hus
  sound ts b vs hlength h := by
    obtain ⟨a, us, hru, hkv⟩ := bind_eq_some.mp h
    obtain ⟨x, rfl, rfl⟩ := hr.sound ts a us hlength hru
    rw [List.length_append] at hlength
    obtain ⟨y, rfl, rfl⟩ := (hk _).sound us b vs (by omega) hkv
    exact ⟨(x, y), (List.append_assoc _ _ _).symm, rfl⟩
  unique := by
    rintro ⟨x, y⟩ ⟨x', y'⟩ us vs hlength hus hvs h
    dsimp only at hlength h
    rw [List.append_assoc] at hlength
    rw [List.append_assoc, List.append_assoc] at h
    obtain rfl := hr.unique x x' _ _ hlength (hfollow y us hus) (hfollow y' vs hvs) h
    rw [List.length_append] at hlength
    obtain rfl := (hk (value x)).unique y y' us vs (by omega) hus hvs (List.append_cancel_left h)
    rfl

/-- After a token there is one token less to go. -/
theorem after_token {read : Token → Option α} {value' : α → σ → β} {k : α → Rule β}
    (hk : ∀ a, Reads n follow tokens' (value' a) (k a)) :
    Reads (n + 1) follow (fun p : Leaf read × σ => p.1.token :: tokens' p.2)
      (fun p => value' p.1.value p.2) (token read >>= k) where
  complete := by
    rintro ⟨x, y⟩ us hlength hus
    exact bind_eq_some.mpr ⟨x.value, tokens' y ++ us, token_eq_some.mpr ⟨x, rfl, rfl⟩,
      (hk _).complete y us (Nat.lt_of_succ_lt_succ hlength) hus⟩
  sound ts b vs hlength h := by
    obtain ⟨a, us, hru, hkv⟩ := bind_eq_some.mp h
    obtain ⟨x, rfl, rfl⟩ := token_eq_some.mp hru
    obtain ⟨y, rfl, rfl⟩ := (hk _).sound us b vs (Nat.lt_of_succ_lt_succ hlength) hkv
    exact ⟨(x, y), rfl, rfl⟩
  unique := by
    rintro ⟨x, y⟩ ⟨x', y'⟩ us vs hlength hus hvs h
    obtain ⟨htoken, hrest⟩ := List.cons.inj h
    obtain rfl := Leaf.eq_of_token htoken
    obtain rfl := (hk x.value).unique y y' us vs (Nat.lt_of_succ_lt_succ hlength) hus hvs hrest
    rfl

theorem token_bind {read : Token → Option α} {value' : α → σ → β} {k : α → Rule β}
    (hk : ∀ a, Reads n follow tokens' (value' a) (k a)) :
    Reads n follow (fun p : Leaf read × σ => p.1.token :: tokens' p.2) (fun p => value' p.1.value p.2)
      (token read >>= k) :=
  (after_token hk).mono (Nat.le_succ n) fun _ hus => hus

/-- A choice reads the trees of both alternatives, if the first does not apply to trees of the second. -/
theorem orElse {value' : σ → α} (hr : Reads n follow tokens value r) (hq : Reads n follow tokens' value' q)
    (hfail : ∀ y us, follow us → r (tokens' y ++ us) = none) :
    Reads n follow (Sum.elim tokens tokens') (Sum.elim value value') (r <|> q) where
  complete := by
    rintro (x | y) us hlength hus
    · exact orElse_eq_some.mpr (.inl (hr.complete x us hlength hus))
    · exact orElse_eq_some.mpr (.inr ⟨hfail y us hus, hq.complete y us hlength hus⟩)
  sound ts a us hlength h := by
    rcases orElse_eq_some.mp h with h | ⟨-, h⟩
    · obtain ⟨x, hx⟩ := hr.sound ts a us hlength h
      exact ⟨.inl x, hx⟩
    · obtain ⟨y, hy⟩ := hq.sound ts a us hlength h
      exact ⟨.inr y, hy⟩
  unique := by
    -- Trees of the two sides never start one list: the first rule would apply to it, and does not.
    have hapart : ∀ x y us vs, (tokens x ++ us).length < n → follow us → follow vs →
        tokens x ++ us ≠ tokens' y ++ vs := by
      intro x y us vs hlength hus hvs h
      have hread := hr.complete x us hlength hus
      rw [h, hfail y vs hvs] at hread
      cases hread
    rintro (x | x) (y | y) us vs hlength hus hvs h
    · rw [hr.unique x y us vs hlength hus hvs h]
    · exact absurd h (hapart x y us vs hlength hus hvs)
    · refine absurd h.symm (hapart y x vs us ?_ hvs hus)
      change (tokens' x ++ us).length < n at hlength
      change tokens' x ++ us = tokens y ++ vs at h
      rwa [← h]
    · rw [hq.unique x y us vs hlength hus hvs h]

/-- A part that may be missing is missing only where its rule does not apply. -/
theorem orElse_pure (hr : Reads n follow tokens value r) (a : α) :
    Reads n (fun us => follow us ∧ r us = none) (optionalTokens tokens) (fun x => x.elim a value)
      (r <|> pure a) := by
  have hsum := (hr.mono (Nat.le_refl n) fun us hus => hus.1).orElse (reads_pure a)
    fun _ us (hus : follow us ∧ r us = none) => hus.2
  exact hsum.of_equiv (Equiv.optionEquivSumPUnit.{0} τ) (by rintro (_ | x) <;> rfl) (by rintro (_ | x) <;> rfl)

theorem optional (hr : Reads n follow tokens value r) :
    Reads n (fun us => follow us ∧ r us = none) (optionalTokens tokens) (Option.map value)
      (optional r : Rule (Option α)) := by
  have hsome := (hr.map some).orElse_pure none
  refine (hsome.mono (Nat.le_refl n) fun us hus => ⟨hus.1, ?_⟩).of_equiv (.refl _) (fun _ => rfl) ?_
  · rw [map_apply, hus.2, Option.map_none]
  · rintro (_ | x) <;> rfl

theorem follow_flatMap (hfollow : ∀ x us, follow (tokens x ++ us)) (xs : List τ) {us : List Token}
    (hus : follow us) : follow (xs.flatMap tokens ++ us) := by
  cases xs with
  | nil => exact hus
  | cons x xs =>
      rw [List.flatMap_cons, List.append_assoc]
      exact hfollow x _

theorem many_cases (hs : Shrinks r) {ts us : List Token} {as : List α} (h : many r ts = some (as, us)) :
    (as = [] ∧ us = ts) ∨ ∃ a vs others, r ts = some (a, vs) ∧ many r vs = some (others, us) ∧ as = a :: others := by
  cases hread : r ts with
  | none =>
      rw [many_of_none hread] at h
      cases h
      exact .inl ⟨rfl, rfl⟩
  | some found =>
      rw [many_of_some hs hread] at h
      obtain ⟨others, hothers, hpair⟩ := Option.map_eq_some_iff.mp h
      cases hpair
      exact .inr ⟨found.1, found.2, others.1, rfl, hothers, rfl⟩

theorem many_sound (hr : Reads n follow tokens value r) (hs : Shrinks r) {ts us : List Token} {as : List α}
    (hlength : ts.length < n) (h : Rule.many r ts = some (as, us)) :
    ∃ xs, ts = List.flatMap tokens xs ++ us ∧ List.map value xs = as := by
  induction as generalizing ts with
  | nil =>
      obtain ⟨-, rfl⟩ | ⟨a, vs, others, -, -, hcons⟩ := many_cases hs h
      · exact ⟨[], rfl, rfl⟩
      · cases hcons
  | cons a as ih =>
      obtain ⟨hnil, -⟩ | ⟨b, vs, others, hread, hothers, hcons⟩ := many_cases hs h
      · cases hnil
      · cases hcons
        obtain ⟨x, rfl, rfl⟩ := hr.sound ts _ vs hlength hread
        rw [List.length_append] at hlength
        obtain ⟨xs, rfl, rfl⟩ := ih (by omega) hothers
        exact ⟨x :: xs, by rw [List.flatMap_cons, List.append_assoc], rfl⟩

/-- Where the rule does not apply no further tree starts. -/
theorem ne_append_of_none (hr : Reads n follow tokens value r) (hfollow : ∀ x us, follow (tokens x ++ us))
    {y : τ} {ys : List τ} {us vs : List Token} (hlength : (tokens y ++ (List.flatMap tokens ys ++ vs)).length < n)
    (hnone : r us = none) (hvs : follow vs) : us ≠ tokens y ++ (List.flatMap tokens ys ++ vs) := by
  rintro rfl
  rw [hr.complete y _ hlength (follow_flatMap hfollow ys hvs)] at hnone
  cases hnone

/-- A repetition reads lists of trees that may stand one in front of another. -/
theorem many (hr : Reads n follow tokens value r) (hs : Shrinks r)
    (hfollow : ∀ x us, follow (tokens x ++ us)) :
    Reads n (fun us => follow us ∧ r us = none) (List.flatMap tokens) (List.map value) (many r) where
  complete xs us hlength hus := by
    induction xs with
    | nil => exact many_of_none hus.2
    | cons x xs ih =>
        rw [List.flatMap_cons, List.append_assoc] at hlength ⊢
        rw [many_of_some hs (hr.complete x _ hlength (follow_flatMap hfollow xs hus.1))]
        rw [List.length_append] at hlength
        rw [ih (by omega), Option.map_some, List.map_cons]
  sound ts as us hlength h := hr.many_sound hs hlength h
  unique xs ys us vs hlength hus hvs h := by
    -- The list that ends first leaves a place where the rule does not apply, and the other list goes on there.
    induction xs generalizing ys with
    | nil =>
        cases ys with
        | nil => rfl
        | cons y ys =>
            rw [List.flatMap_nil, List.nil_append] at h hlength
            rw [List.flatMap_cons, List.append_assoc] at h
            exact absurd h (hr.ne_append_of_none hfollow (h ▸ hlength) hus.2 hvs.1)
    | cons x xs ih =>
        rw [List.flatMap_cons, List.append_assoc] at h hlength
        cases ys with
        | nil => exact absurd h.symm (hr.ne_append_of_none hfollow hlength hvs.2 hus.1)
        | cons y ys =>
            rw [List.flatMap_cons, List.append_assoc] at h
            obtain rfl := hr.unique x y _ _ hlength (follow_flatMap hfollow xs hus.1)
              (follow_flatMap hfollow ys hvs.1) h
            rw [List.length_append] at hlength
            rw [ih ys (by omega) (List.append_cancel_left h)]

theorem atLeastOne (hr : Reads n follow tokens value r) (hs : Shrinks r)
    (hfollow : ∀ x us, follow (tokens x ++ us)) :
    Reads n (fun us => follow us ∧ r us = none) (fun p : τ × List τ => tokens p.1 ++ p.2.flatMap tokens)
      (fun p => value p.1 :: p.2.map value) (atLeastOne r) := by
  have hothers : ∀ first, Reads n (fun us => follow us ∧ r us = none) (List.flatMap tokens)
      (fun xs => first :: xs.map value) (do return first :: (← Rule.many r)) := fun first =>
    (hr.many hs hfollow).map (first :: ·)
  exact hr.bind hothers fun xs us hus => follow_flatMap hfollow xs hus.1

theorem commaSeparated (hr : Reads n follow tokens value r) (hs : Shrinks r)
    (hcomma : ∀ (comma : MarkLeaf .comma) us, follow (comma.token :: us)) :
    Reads n (fun us => follow us ∧ mark .comma us = none) (Separated.tokens tokens) (Separated.values value)
      (commaSeparated r) := by
  have hnext : Reads n follow (fun p : MarkLeaf .comma × τ => p.1.token :: tokens p.2)
      (fun p => value p.2) (do mark .comma; r) :=
    token_bind fun _ => hr
  have hfollow : ∀ (p : MarkLeaf .comma × τ) us, follow (p.1.token :: tokens p.2 ++ us) :=
    fun p us => hcomma p.1 _
  have hshrinks : Shrinks (do mark .comma; r) := (shrinks_mark .comma).bind fun _ => hs.keeps
  have hothers : ∀ first, Reads n (fun us => follow us ∧ mark .comma us = none)
      (List.flatMap fun p : MarkLeaf .comma × τ => p.1.token :: tokens p.2)
      (fun ps => first :: ps.map fun p => value p.2)
      (do return first :: (← Rule.many do mark .comma; r)) := by
    refine fun first => ((hnext.many hshrinks hfollow).map (first :: ·)).mono (Nat.le_refl n) ?_
    rintro us ⟨hus, hnone⟩
    exact ⟨hus, by rw [bind_apply, hnone, Option.bind_none]⟩
  exact (hr.bind hothers fun ps us hus => follow_flatMap hfollow ps hus.1).of_equiv Separated.equivPair
    (Separated.tokens_eq tokens) (Separated.values_eq value)

/-- Between two marks anything may follow, since the closing mark ends what is inside. -/
theorem between (opening closing : Mark) (hr : Reads n follow tokens value r)
    (hclosing : ∀ (c : MarkLeaf closing) us, follow (c.token :: us)) :
    Reads (n + 1) follow' (fun p : MarkLeaf opening × τ × MarkLeaf closing =>
      p.1.token :: (tokens p.2.1 ++ [p.2.2.token])) (fun p => value p.2.1) (between opening closing r) := by
  exact after_token fun _ => hr.bind (reads_mark_return closing) fun c us _ => hclosing c us

/-- Read to the end of the tokens, a rule takes in the tokens of one tree. -/
theorem complete_eq_some_iff {ts : List Token} {a : α} (h : Reads (ts.length + 1) follow tokens value r)
    (hend : follow []) : complete? r ts = some a ↔ ∃ x, tokens x = ts ∧ value x = a := by
  rw [complete_eq_some]
  constructor
  · intro hr
    obtain ⟨x, hx, ha⟩ := h.sound ts a [] (Nat.lt_succ_self _) hr
    exact ⟨x, by rw [hx, List.append_nil], ha⟩
  · rintro ⟨x, rfl, rfl⟩
    have hx := h.complete x []
    rw [List.append_nil] at hx
    exact hx (Nat.lt_succ_self _) hend

theorem eq_of_tokens_eq {x y : τ} (h : Reads ((tokens x).length + 1) follow tokens value r) (hend : follow [])
    (hxy : tokens x = tokens y) : x = y := by
  refine h.unique x y [] [] ?_ hend hend (by rw [hxy])
  rw [List.append_nil]
  exact Nat.lt_succ_self _

end Reads

/-- None of the marks comes next. -/
def Avoids (marks : List Mark) (us : List Token) : Prop := ∀ m ∈ marks, mark m us = none

theorem mark_of_kind {m : Mark} {t : Token} (h : t.kind ≠ .mark m) (us : List Token) :
    mark m (t :: us) = none := by
  rw [mark, tokenThat_cons, if_neg]
  exact fun hmark => h (Token.kind_of_isMark hmark)

theorem keyword_of_not_isWord {name : String} {t : Token} (h : t.isWord name = false) (us : List Token) :
    keyword name (t :: us) = none := by
  rw [keyword, tokenThat_cons, h, if_neg Bool.false_ne_true]

theorem avoids_of_kind {marks : List Mark} {t : Token} (h : ∀ m ∈ marks, t.kind ≠ .mark m) (us : List Token) :
    Avoids marks (t :: us) := fun m hm => mark_of_kind (h m hm) us

theorem avoids_of_word {t : Token} (h : t.kind = .word) (marks : List Mark) (us : List Token) :
    Avoids marks (t :: us) := by
  refine avoids_of_kind (fun m _ hm => ?_) us
  rw [h] at hm
  cases hm

theorem avoids_of_mark {m : Mark} (x : MarkLeaf m) {marks : List Mark} (hm : m ∉ marks) (us : List Token) :
    Avoids marks (x.token :: us) := by
  refine avoids_of_kind (fun m' hm' hkind => ?_) us
  rw [x.kind_eq] at hkind
  cases hkind
  exact hm hm'

end Rule

end BluespecDocs
