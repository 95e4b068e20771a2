import BluespecDocs.Proofs.RuleProgress

/-!
Two rules side by side. Rules run in parallel if, at places in two token lists that are related, either
both apply or neither does, with related values and again related places behind what they read. One-token
rules run in parallel wherever the tokens at hand have the same kind and text, and the combinators hand this
on, so that one statement for each rule serves to move tokens, to cut or extend the list behind them, and to
bound the depth of a rule that uses itself.
-/

namespace BluespecDocs

/-- Whether rules look at the text of tokens of a kind. They do not at comments and at text of no lexical
class. -/
def TokenKind.hasText : TokenKind → Bool
  | comment _ | other => false
  | _ => true

namespace Token

/-- Tokens that no rule tells apart: of the same kind and, where rules look at it, of the same text. -/
def Alike (t t' : Token) : Prop := t.kind = t'.kind ∧ (t.kind.hasText = true → t.text = t'.text)

theorem Alike.refl (t : Token) : t.Alike t := ⟨rfl, fun _ => rfl⟩

theorem Alike.isWord_eq {t t' : Token} (h : t.Alike t') (name : String) :
    t.isWord name = t'.isWord name := by
  rw [isWord, isWord, ← h.1]
  by_cases hkind : t.kind = .word
  · rw [h.2 (by rw [hkind]; rfl)]
  · rw [beq_false_of_ne hkind, Bool.false_and, Bool.false_and]

theorem Alike.isMark_eq {t t' : Token} (h : t.Alike t') (m : Mark) : t.isMark m = t'.isMark m := by
  rw [isMark, isMark, h.1]

theorem kind_of_isWord {name : String} {t : Token} (h : t.isWord name = true) : t.kind = .word := by
  rw [isWord, Bool.and_eq_true, beq_iff_eq] at h
  exact h.1

theorem text_of_isWord {name : String} {t : Token} (h : t.isWord name = true) : t.text = name := by
  rw [isWord, Bool.and_eq_true, beq_iff_eq, beq_iff_eq] at h
  exact h.2

theorem eq_of_isWord {t : Token} {a b : String} (ha : t.isWord a = true) (hb : t.isWord b = true) :
    a = b :=
  (text_of_isWord ha).symm.trans (text_of_isWord hb)

theorem kind_of_isMark {m : Mark} {t : Token} (h : t.isMark m = true) : t.kind = .mark m := by
  rwa [isMark, beq_iff_eq] at h

end Token

namespace Rule

variable {α β γ δ : Type} {R R₀ S T : List Token → List Token → Prop}

/-- At places related by `R` both rules apply or neither does; then the values are related by `V` and the
tokens left by `S`. -/
def Parallel (R S : List Token → List Token → Prop) (V : α → β → Prop) (r : Rule α) (q : Rule β) : Prop :=
  ∀ ts ts', R ts ts' → Option.Rel (fun x y => V x.1 y.1 ∧ S x.2 y.2) (r ts) (q ts')

/-- Related places are both at the end, or show tokens that no rule tells apart; behind a token that passes
the test the places are related by `S`. -/
def Lockstep (inside : Token → Bool) (R S : List Token → List Token → Prop) : Prop :=
  ∀ ts ts', R ts ts' → (ts = [] ∧ ts' = []) ∨ ∃ t us t' us', ts = t :: us ∧ ts' = t' :: us' ∧
    t.Alike t' ∧ (inside t = true → S us us')

theorem Lockstep.mono {inside outside : Token → Bool} (h : Lockstep inside R S)
    (hsub : ∀ t, outside t = true → inside t = true) : Lockstep outside R S := by
  intro ts ts' hR
  rcases h ts ts' hR with hnil | ⟨t, us, t', us', hts, hts', halike, hS⟩
  · exact Or.inl hnil
  · exact Or.inr ⟨t, us, t', us', hts, hts', halike, fun ht => hS (hsub t ht)⟩

theorem Parallel.cases {V : α → β → Prop} {r : Rule α} {q : Rule β} (h : Parallel R S V r q)
    {ts ts' : List Token} (hR : R ts ts') : (r ts = none ∧ q ts' = none) ∨
      ∃ a us b us', r ts = some (a, us) ∧ q ts' = some (b, us') ∧ V a b ∧ S us us' := by
  have hrel := h ts ts' hR
  generalize r ts = x, q ts' = y at hrel
  cases hrel with
  | none => exact Or.inl ⟨rfl, rfl⟩
  | some hx => exact Or.inr ⟨_, _, _, _, rfl, rfl, hx.1, hx.2⟩

theorem Parallel.mono {V W : α → β → Prop} {r : Rule α} {q : Rule β} (h : Parallel R S V r q)
    (hV : ∀ a b, V a b → W a b) (hS : ∀ us us', S us us' → T us us') : Parallel R T W r q := by
  intro ts ts' hR
  rcases h.cases hR with ⟨hr, hq⟩ | ⟨a, us, b, us', hr, hq, hab, hus⟩
  · rw [hr, hq]
    exact .none
  · rw [hr, hq]
    exact .some ⟨hV a b hab, hS us us' hus⟩

theorem parallel_pure {V : α → β → Prop} {a : α} {b : β} (hV : V a b) :
    Parallel R R V (pure a) (pure b) := fun _ _ hR => .some ⟨hV, hR⟩

theorem parallel_failure {V : α → β → Prop} : Parallel R S V failure failure := fun _ _ _ => .none

theorem parallel_token {inside : Token → Bool} {read : Token → Option α} (h : Lockstep inside R S)
    (hread : ∀ t t' : Token, t.Alike t' → read t = read t')
    (hinside : ∀ t, (read t).isSome → inside t = true) :
    Parallel R S Eq (token read) (token read) := by
  intro ts ts' hR
  rcases h ts ts' hR with ⟨rfl, rfl⟩ | ⟨t, us, t', us', rfl, rfl, halike, hS⟩
  · exact .none
  · rw [token_cons, token_cons, ← hread t t' halike]
    cases hr : read t with
    | none => exact .none
    | some a => exact .some ⟨rfl, hS (hinside t (by rw [hr]; rfl))⟩

theorem parallel_tokenThat {inside test : Token → Bool} (h : Lockstep inside R S)
    (htest : ∀ t t' : Token, t.Alike t' → test t = test t')
    (hinside : ∀ t, test t = true → inside t = true) :
    Parallel R S Eq (tokenThat test) (tokenThat test) := by
  refine parallel_token h (fun t t' halike => ?_) (fun t ht => hinside t ?_)
  · rw [htest t t' halike]
  · by_cases hp : test t = true
    · exact hp
    · rw [if_neg hp] at ht
      cases ht

theorem parallel_keyword {inside : Token → Bool} (h : Lockstep inside R S) (name : String)
    (hinside : ∀ t : Token, t.kind = .word → inside t = true) :
    Parallel R S Eq (keyword name) (keyword name) := by
  refine parallel_tokenThat h (fun _ _ halike => halike.isWord_eq name) fun t ht => ?_
  exact hinside t (Token.kind_of_isWord ht)

theorem parallel_mark {inside : Token → Bool} (h : Lockstep inside R S) (m : Mark)
    (hinside : ∀ t, Token.isMark m t = true → inside t = true) :
    Parallel R S Eq (mark m) (mark m) :=
  parallel_tokenThat h (fun _ _ halike => halike.isMark_eq m) hinside

theorem Parallel.bind {V : α → β → Prop} {W : γ → δ → Prop} {r : Rule α} {q : Rule β}
    {k : α → Rule γ} {l : β → Rule δ} (h : Parallel R S V r q)
    (hk : ∀ a b, V a b → Parallel S T W (k a) (l b)) : Parallel R T W (r >>= k) (q >>= l) := by
  intro ts ts' hR
  rw [bind_apply, bind_apply]
  rcases h.cases hR with ⟨hr, hq⟩ | ⟨a, us, b, us', hr, hq, hab, hus⟩
  · rw [hr, hq]
    exact .none
  · rw [hr, hq]
    exact hk a b hab us us' hus

/-- The rule after a rule whose value is the same on both sides. -/
theorem Parallel.bind_eq {W : γ → δ → Prop} {r q : Rule α} {k : α → Rule γ} {l : α → Rule δ}
    (h : Parallel R S Eq r q) (hk : ∀ a, Parallel S T W (k a) (l a)) :
    Parallel R T W (r >>= k) (q >>= l) :=
  h.bind fun a _ hab => hab ▸ hk a

theorem Parallel.orElse {V : α → β → Prop} {r r₂ : Rule α} {q q₂ : Rule β} (h : Parallel R S V r q)
    (h₂ : Parallel R S V r₂ q₂) : Parallel R S V (r <|> r₂) (q <|> q₂) := by
  intro ts ts' hR
  rw [orElse_apply, orElse_apply]
  rcases h.cases hR with ⟨hr, hq⟩ | ⟨a, us, b, us', hr, hq, hab, hus⟩
  · rw [hr, hq]
    exact h₂ ts ts' hR
  · rw [hr, hq]
    exact .some ⟨hab, hus⟩

theorem Parallel.orEmpty {r q : Rule (List α)} (h : Parallel R R Eq r q) :
    Parallel R R Eq (orEmpty r) (orEmpty q) := h.orElse (parallel_pure rfl)

theorem Parallel.optional {r q : Rule α} (h : Parallel R R Eq r q) :
    Parallel R R Eq (optional r : Rule (Option α)) (optional q) :=
  Parallel.orElse (h.bind_eq fun _ => parallel_pure rfl) (parallel_pure rfl)

theorem Parallel.upTo {g : α → β} {r : Rule α} {q : Rule β}
    (h : Parallel R R (fun a b => b = g a) r q) (n : Nat) :
    Parallel R R (fun as bs => bs = as.map g) (upTo r n) (upTo q n) := by
  induction n with
  | zero => exact parallel_pure rfl
  | succ n ih =>
      refine Parallel.orElse (h.bind fun a b hb => ih.bind fun as bs hbs => parallel_pure ?_)
        (parallel_pure rfl)
      rw [hb, hbs, List.map_cons]

/-- Repetitions of items that run in parallel, the values of one side being those of the other under
`g`. -/
theorem Parallel.many_map {g : α → β} {r : Rule α} {q : Rule β} (hr : Shrinks r) (hq : Shrinks q)
    (h : Parallel R R (fun a b => b = g a) r q) :
    Parallel R R (fun as bs => bs = as.map g) (many r) (many q) := by
  intro ts ts' hR
  rw [← upTo_eq_many hr (Nat.le_max_left ts.length ts'.length),
    ← upTo_eq_many hq (Nat.le_max_right ts.length ts'.length)]
  exact h.upTo _ ts ts' hR

theorem Parallel.many {r q : Rule α} (hr : Shrinks r) (hq : Shrinks q) (h : Parallel R R Eq r q) :
    Parallel R R Eq (many r) (many q) := by
  have hid : Parallel R R (fun a b => b = id a) r q := h.mono (fun _ _ hab => hab.symm) fun _ _ hR => hR
  refine (many_map hr hq hid).mono (fun as bs hbs => ?_) fun _ _ hR => hR
  rw [hbs, List.map_id]

theorem Parallel.atLeastOne {r q : Rule α} (hr : Shrinks r) (hq : Shrinks q)
    (h : Parallel R R Eq r q) : Parallel R R Eq (atLeastOne r) (atLeastOne q) :=
  h.bind_eq fun _ => (h.many hr hq).bind_eq fun _ => parallel_pure rfl

theorem Parallel.spanned {V : α → β → Prop} {W : Span → Span → Prop} {r : Rule α} {q : Rule β}
    (hr : Shrinks r) (h : Parallel R S V r q)
    (hspan : ∀ ts ts' us us', R ts ts' → S us us' → us <:+ ts → us.length < ts.length →
      W (spanRead ts us) (spanRead ts' us')) :
    Parallel R S (fun x y => V x.1 y.1 ∧ W x.2 y.2) (spanned r) (spanned q) := by
  intro ts ts' hR
  rcases h.cases hR with ⟨hrn, hqn⟩ | ⟨a, us, b, us', hrs, hqs, hab, hus⟩
  · rw [spanned_eq_none.mpr hrn, spanned_eq_none.mpr hqn]
    exact .none
  · rw [spanned_eq_some.mpr ⟨hrs, rfl⟩, spanned_eq_some.mpr ⟨hqs, rfl⟩]
    exact .some ⟨⟨hab, hspan ts ts' us us' hR hus (hr ts a us hrs).1 (hr ts a us hrs).2⟩, hus⟩

/-- The same place, with fewer than `n` tokens to go. -/
def Below (n : Nat) (ts ts' : List Token) : Prop := ts = ts' ∧ ts.length < n

theorem lockstep_below {n m : Nat} (hnm : n ≤ m + 1) (inside : Token → Bool) :
    Lockstep inside (Below n) (Below m) := by
  rintro ts _ ⟨rfl, hlength⟩
  cases ts with
  | nil => exact Or.inl ⟨rfl, rfl⟩
  | cons t us =>
      rw [List.length_cons] at hlength
      exact Or.inr ⟨t, us, t, us, rfl, rfl, .refl t, fun _ => ⟨rfl, by omega⟩⟩

theorem Below.eq_of_parallel {n : Nat} {r q : Rule α} (h : Parallel (Below n) S Eq r q)
    (hS : ∀ us us', S us us' → us = us') {ts : List Token} (hts : ts.length < n) : r ts = q ts := by
  rcases h.cases ⟨rfl, hts⟩ with ⟨hr, hq⟩ | ⟨a, us, b, us', hr, hq, hab, hus⟩
  · rw [hr, hq]
  · rw [hr, hq, hab, hS us us' hus]

/-- A rule built from another one that reads a token before it uses that one. -/
structure Descends (step : Rule α → Rule α) : Prop where
  shrinks : ∀ r, Shrinks r → Shrinks (step r)
  parallel : ∀ n r q, Shrinks r → Shrinks q → Parallel (Below n) (Below n) Eq r q →
    Parallel (Below (n + 1)) (Below n) Eq (step r) (step q)

namespace Descends

variable {step : Rule α → Rule α}

/-- With fewer than `k` tokens to go, all bounds on the depth from `k - 1` on are as good as each other. -/
theorem nestedTo_parallel (h : Descends step) (k : Nat) {n m : Nat} (hn : k ≤ n + 1) (hm : k ≤ m + 1) :
    Parallel (Below k) (Below k) Eq (nestedTo step n) (nestedTo step m) := by
  induction k generalizing n m with
  | zero =>
      rintro ts _ ⟨-, hlength⟩
      omega
  | succ k ih =>
      cases k with
      | zero =>
          rintro ts _ ⟨rfl, hlength⟩
          obtain rfl := List.eq_nil_of_length_eq_zero (Nat.lt_one_iff.mp hlength)
          rw [(Shrinks.nestedTo h.shrinks n).nil, (Shrinks.nestedTo h.shrinks m).nil]
          exact .none
      | succ k =>
          obtain ⟨n, rfl⟩ : ∃ i, n = i + 1 := ⟨n - 1, by omega⟩
          obtain ⟨m, rfl⟩ : ∃ i, m = i + 1 := ⟨m - 1, by omega⟩
          have hbelow := h.parallel (k + 1) _ _ (Shrinks.nestedTo h.shrinks n)
            (Shrinks.nestedTo h.shrinks m) (ih (by omega) (by omega))
          exact hbelow.mono (fun _ _ hab => hab) fun us us' hus => ⟨hus.1, by have := hus.2; omega⟩

theorem nestedTo_eq (h : Descends step) {n m : Nat} {ts : List Token} (hn : ts.length ≤ n)
    (hm : ts.length ≤ m) : nestedTo step n ts = nestedTo step m ts := by
  have hparallel := h.nestedTo_parallel (n := n) (m := m) (ts.length + 1) (by omega) (by omega)
  exact Below.eq_of_parallel hparallel (fun _ _ hus => hus.1) (Nat.lt_succ_self _)

theorem recursive_shrinks (h : Descends step) : Shrinks (recursive step) := Shrinks.recursive h.shrinks

/-- A rule that descends is what its definition makes of itself. -/
theorem recursive_eq (h : Descends step) (ts : List Token) :
    recursive step ts = step (recursive step) ts := by
  have hself : Parallel (Below ts.length) (Below ts.length) Eq (nestedTo step ts.length)
      (recursive step) := by
    rintro us _ ⟨rfl, hlength⟩
    rw [recursive, h.nestedTo_eq (Nat.le_of_lt hlength) (Nat.le_refl _)]
    cases hus : nestedTo step us.length us with
    | none => exact .none
    | some found =>
        have hrest := (Shrinks.nestedTo h.shrinks _ us found.1 found.2 hus).2
        exact .some ⟨rfl, rfl, by omega⟩
  have hstep := h.parallel ts.length _ _ (Shrinks.nestedTo h.shrinks _) h.recursive_shrinks hself
  rw [← Below.eq_of_parallel hstep (fun _ _ hus => hus.1) (Nat.lt_succ_self _), recursive,
    h.nestedTo_eq (Nat.le_refl _) (Nat.le_succ _), nestedTo]

/-- Rules that use themselves run in parallel if their definitions hand this on. -/
theorem recursive_parallel {V : α → β → Prop} {step' : Rule β → Rule β} (h : Descends step)
    (h' : Descends step')
    (hstep : ∀ r q, Shrinks r → Shrinks q → Parallel R R V r q → Parallel R R V (step r) (step' q)) :
    Parallel R R V (recursive step) (recursive step') := by
  have hnested : ∀ n, Parallel R R V (nestedTo step n) (nestedTo step' n) := by
    intro n
    induction n with
    | zero => exact parallel_failure
    | succ n ih =>
        exact hstep _ _ (Shrinks.nestedTo h.shrinks n) (Shrinks.nestedTo h'.shrinks n) ih
  intro ts ts' hR
  rw [recursive, recursive, h.nestedTo_eq (Nat.le_refl _) (Nat.le_max_left ts.length ts'.length),
    h'.nestedTo_eq (Nat.le_refl _) (Nat.le_max_right ts.length ts'.length)]
  exact hnested _ ts ts' hR

end Descends

end Rule

end BluespecDocs
