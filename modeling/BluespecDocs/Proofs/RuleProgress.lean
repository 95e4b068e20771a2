import BluespecDocs.Rule

/-!
What grammar rules leave unread. A rule keeps its place if the tokens it leaves are a rear part of the
tokens it was given, and it shrinks them if it has read at least one. Both pass from the parts of a rule to
the whole. Shrinking items are read to the same end by every bound on their number that is as large as the
token list, so a repetition unfolds without its bound.
-/

namespace BluespecDocs

namespace Rule

variable {α β : Type}

theorem pure_apply (a : α) (ts : List Token) : (pure a : Rule α) ts = some (a, ts) := rfl

theorem bind_apply (r : Rule α) (k : α → Rule β) (ts : List Token) :
    (r >>= k) ts = (r ts).bind fun found => k found.1 found.2 := rfl

theorem orElse_apply (r q : Rule α) (ts : List Token) : (r <|> q) ts = (r ts).or (q ts) := by
  change ((r ts).orElse fun _ => q ts) = _
  cases r ts <;> rfl

theorem map_apply (f : α → β) (r : Rule α) (ts : List Token) :
    (f <$> r) ts = (r ts).map fun found => (f found.1, found.2) := by
  change (r >>= fun a => pure (f a)) ts = _
  rw [bind_apply]
  cases r ts <;> rfl

theorem bind_eq_some {r : Rule α} {k : α → Rule β} {ts : List Token} {found : β × List Token} :
    (r >>= k) ts = some found ↔ ∃ a us, r ts = some (a, us) ∧ k a us = some found := by
  rw [bind_apply, Option.bind_eq_some_iff]
  constructor
  · rintro ⟨⟨a, us⟩, hr, hk⟩
    exact ⟨a, us, hr, hk⟩
  · rintro ⟨a, us, hr, hk⟩
    exact ⟨(a, us), hr, hk⟩

theorem complete_eq_some {r : Rule α} {ts : List Token} {a : α} :
    complete? r ts = some a ↔ r ts = some (a, []) := by
  rw [complete?]
  split
  · next found hr => rw [hr, Option.some.injEq, Option.some.injEq, Prod.mk.injEq, and_iff_left rfl]
  · next hother =>
      refine ⟨fun h => ?_, fun h => absurd h (hother a)⟩
      cases h

theorem orElse_eq_some {r q : Rule α} {ts : List Token} {found : α × List Token} :
    (r <|> q) ts = some found ↔ r ts = some found ∨ r ts = none ∧ q ts = some found := by
  rw [orElse_apply, Option.or_eq_some_iff]

theorem optional_apply (r : Rule α) (ts : List Token) :
    (optional r : Rule (Option α)) ts =
      ((r ts).map fun found => (some found.1, found.2)).or (some (none, ts)) := by
  change ((some <$> r) <|> pure none : Rule (Option α)) ts = _
  rw [orElse_apply, map_apply, pure_apply]

theorem token_cons (read : Token → Option α) (t : Token) (ts : List Token) :
    token read (t :: ts) = (read t).map (·, ts) := rfl

theorem tokenThat_cons (test : Token → Bool) (t : Token) (ts : List Token) :
    tokenThat test (t :: ts) = if test t then some ((), ts) else none := by
  rw [tokenThat, token_cons]
  split <;> rfl

theorem tokenThat_eq_some {test : Token → Bool} {ts us : List Token} {a : Unit} :
    tokenThat test ts = some (a, us) ↔ ∃ t, ts = t :: us ∧ test t = true := by
  cases ts with
  | nil => simp [tokenThat, token, Reader.element]
  | cons t ts =>
      rw [tokenThat_cons]
      constructor
      · intro h
        split at h
        · cases h
          exact ⟨t, rfl, by assumption⟩
        · cases h
      · rintro ⟨t', h, ht⟩
        cases h
        rw [if_pos ht]

/-- The tokens that a rule leaves are the rear of those it was given. -/
def Keeps (r : Rule α) : Prop := ∀ ts a us, r ts = some (a, us) → us <:+ ts

/-- A rule that applies has read at least one token, and leaves the rest as it was. -/
def Shrinks (r : Rule α) : Prop := ∀ ts a us, r ts = some (a, us) → us <:+ ts ∧ us.length < ts.length

theorem Shrinks.keeps {r : Rule α} (h : Shrinks r) : Keeps r := fun ts a us hr => (h ts a us hr).1

theorem keeps_pure (a : α) : Keeps (pure a : Rule α) := by
  intro ts b us h
  cases h
  exact List.suffix_refl ts

theorem shrinks_failure : Shrinks (failure : Rule α) := by
  intro ts a us h
  cases h

theorem shrinks_token (read : Token → Option α) : Shrinks (token read) := by
  intro ts a us h
  cases ts with
  | nil => cases h
  | cons t ts =>
      obtain ⟨b, -, hb⟩ := Option.map_eq_some_iff.mp h
      cases hb
      exact ⟨List.suffix_cons t us, by simp⟩

theorem shrinks_tokenThat (test : Token → Bool) : Shrinks (tokenThat test) := shrinks_token _

theorem shrinks_keyword (name : String) : Shrinks (keyword name) := shrinks_token _

theorem shrinks_mark (m : Mark) : Shrinks (mark m) := shrinks_token _

theorem Keeps.bind {r : Rule α} {k : α → Rule β} (hr : Keeps r) (hk : ∀ a, Keeps (k a)) :
    Keeps (r >>= k) := by
  intro ts b vs h
  obtain ⟨a, us, hru, hku⟩ := bind_eq_some.mp h
  exact (hk a us b vs hku).trans (hr ts a us hru)

theorem Shrinks.bind {r : Rule α} {k : α → Rule β} (hr : Shrinks r) (hk : ∀ a, Keeps (k a)) :
    Shrinks (r >>= k) := by
  intro ts b vs h
  obtain ⟨a, us, hru, hku⟩ := bind_eq_some.mp h
  obtain ⟨hsuffix, hlength⟩ := hr ts a us hru
  have hrest := hk a us b vs hku
  exact ⟨hrest.trans hsuffix, Nat.lt_of_le_of_lt hrest.length_le hlength⟩

theorem Keeps.bind_shrinks {r : Rule α} {k : α → Rule β} (hr : Keeps r) (hk : ∀ a, Shrinks (k a)) :
    Shrinks (r >>= k) := by
  intro ts b vs h
  obtain ⟨a, us, hru, hku⟩ := bind_eq_some.mp h
  obtain ⟨hsuffix, hlength⟩ := hk a us b vs hku
  have hfirst := hr ts a us hru
  exact ⟨hsuffix.trans hfirst, Nat.lt_of_lt_of_le hlength hfirst.length_le⟩

theorem Keeps.orElse {r q : Rule α} (hr : Keeps r) (hq : Keeps q) : Keeps (r <|> q) := by
  intro ts a us h
  rcases orElse_eq_some.mp h with h | ⟨-, h⟩
  · exact hr ts a us h
  · exact hq ts a us h

theorem Shrinks.orElse {r q : Rule α} (hr : Shrinks r) (hq : Shrinks q) : Shrinks (r <|> q) := by
  intro ts a us h
  rcases orElse_eq_some.mp h with h | ⟨-, h⟩
  · exact hr ts a us h
  · exact hq ts a us h

theorem Shrinks.map {r : Rule α} (hr : Shrinks r) (f : α → β) : Shrinks (f <$> r) :=
  hr.bind fun _ => keeps_pure _

theorem Keeps.orEmpty {r : Rule (List α)} (hr : Keeps r) : Keeps (orEmpty r) :=
  hr.orElse (keeps_pure [])

theorem Keeps.optional {r : Rule α} (hr : Keeps r) : Keeps (optional r : Rule (Option α)) :=
  Keeps.orElse (hr.bind fun _ => keeps_pure _) (keeps_pure none)

theorem Keeps.upTo {item : Rule α} (h : Keeps item) (n : Nat) : Keeps (upTo item n) := by
  induction n with
  | zero => exact keeps_pure []
  | succ n ih =>
      refine Keeps.orElse ?_ (keeps_pure [])
      refine h.bind fun a => ?_
      refine ih.bind fun others => ?_
      exact keeps_pure (a :: others)

theorem Keeps.many {item : Rule α} (h : Keeps item) : Keeps (many item) :=
  fun ts => h.upTo ts.length ts

theorem Shrinks.atLeastOne {item : Rule α} (h : Shrinks item) : Shrinks (atLeastOne item) := by
  refine h.bind fun first => ?_
  refine h.keeps.many.bind fun others => ?_
  exact keeps_pure (first :: others)

theorem Shrinks.commaSeparated {item : Rule α} (h : Shrinks item) : Shrinks (commaSeparated item) := by
  have hnext : Shrinks (mark .comma >>= fun _ => item) := (shrinks_mark .comma).bind fun _ => h.keeps
  refine h.bind fun first => ?_
  refine hnext.keeps.many.bind fun others => ?_
  exact keeps_pure (first :: others)

theorem shrinks_between (opening closing : Mark) {item : Rule α} (h : Keeps item) :
    Shrinks (between opening closing item) := by
  refine (shrinks_mark opening).bind fun _ => ?_
  refine h.bind fun value => ?_
  refine (shrinks_mark closing).keeps.bind fun _ => ?_
  exact keeps_pure value

theorem Shrinks.parenthesized {item : Rule α} (h : Shrinks item) : Shrinks (parenthesized item) :=
  shrinks_between _ _ h.commaSeparated.keeps

/-- The span of what was read runs from the first token read to the last. -/
theorem spanRead_append {q : List Token} (hq : q ≠ []) (us : List Token) :
    spanRead (q ++ us) us = ⟨(q.head hq).span.start, (q.getLast hq).span.stop⟩ := by
  cases q with
  | nil => exact absurd rfl hq
  | cons t q =>
      change Span.mk _ (List.getLastD (List.take ((t :: (q ++ us)).length - us.length) _) t).span.stop = _
      have hlength : (t :: (q ++ us)).length - us.length = (t :: q).length := by
        simp only [List.length_cons, List.length_append]
        omega
      rw [hlength, List.take_left, List.getLastD_eq_getLast?,
        List.getLast?_eq_some_getLast hq]
      rfl

/-- The span of what has been read is that of the tokens read. -/
theorem spanRead_append_nil {q : List Token} (hq : q ≠ []) (us : List Token) :
    spanRead (q ++ us) us = spanRead q [] := by
  have hspan := spanRead_append hq []
  rw [List.append_nil] at hspan
  rw [spanRead_append hq, hspan]

theorem spanned_eq_some {r : Rule α} {ts us : List Token} {a : α} {span : Span} :
    spanned r ts = some ((a, span), us) ↔ r ts = some (a, us) ∧ span = spanRead ts us := by
  change ((r ts).bind fun found => some ((found.1, spanRead ts found.2), found.2)) = _ ↔ _
  cases r ts with
  | none => simp
  | some found =>
      obtain ⟨b, vs⟩ := found
      simp only [Option.bind_some, Option.some.injEq, Prod.mk.injEq]
      constructor
      · rintro ⟨⟨rfl, rfl⟩, rfl⟩
        exact ⟨⟨rfl, rfl⟩, rfl⟩
      · rintro ⟨⟨rfl, rfl⟩, rfl⟩
        exact ⟨⟨rfl, rfl⟩, rfl⟩

theorem spanned_eq_none {r : Rule α} {ts : List Token} : spanned r ts = none ↔ r ts = none := by
  change ((r ts).bind fun found => some ((found.1, spanRead ts found.2), found.2)) = _ ↔ _
  cases r ts <;> simp

theorem Shrinks.spanned {r : Rule α} (h : Shrinks r) : Shrinks (spanned r) := by
  rintro ts ⟨a, span⟩ us hs
  exact h ts a us (spanned_eq_some.mp hs).1

theorem Shrinks.nestedTo {step : Rule α → Rule α} (h : ∀ r, Shrinks r → Shrinks (step r)) (n : Nat) :
    Shrinks (nestedTo step n) := by
  induction n with
  | zero => exact shrinks_failure
  | succ n ih => exact h _ ih

theorem Shrinks.recursive {step : Rule α → Rule α} (h : ∀ r, Shrinks r → Shrinks (step r)) :
    Shrinks (recursive step) := fun ts => Shrinks.nestedTo h ts.length ts

theorem upTo_succ (item : Rule α) (n : Nat) (ts : List Token) :
    upTo item (n + 1) ts = ((item ts).bind fun found =>
      (upTo item n found.2).map fun others => (found.1 :: others.1, others.2)).or (some ([], ts)) := by
  rw [upTo, orElse_apply, bind_apply]
  congr 2
  funext found
  rw [bind_apply]
  cases upTo item n found.2 <;> rfl

theorem Shrinks.nil {r : Rule α} (h : Shrinks r) : r [] = none := by
  cases hr : r [] with
  | none => rfl
  | some found =>
      obtain ⟨a, us⟩ := found
      have hlength := (h [] a us hr).2
      simp at hlength

theorem upTo_of_none {item : Rule α} {ts : List Token} (h : item ts = none) (n : Nat) :
    upTo item n ts = some ([], ts) := by
  cases n with
  | zero => rfl
  | succ n => rw [upTo_succ, h, Option.bind_none, Option.none_or]

/-- A bound on the number of items that is as large as the token list is as good as any other. -/
theorem upTo_eq_upTo {item : Rule α} (h : Shrinks item) {n m : Nat} {ts : List Token}
    (hn : ts.length ≤ n) (hm : ts.length ≤ m) : upTo item n ts = upTo item m ts := by
  induction n generalizing m ts with
  | zero =>
      obtain rfl := List.eq_nil_of_length_eq_zero (Nat.le_zero.mp hn)
      rw [upTo_of_none h.nil, upTo_of_none h.nil]
  | succ n ih =>
      cases hitem : item ts with
      | none => rw [upTo_of_none hitem, upTo_of_none hitem]
      | some found =>
          obtain ⟨a, us⟩ := found
          have hlength := (h ts a us hitem).2
          obtain ⟨m, rfl⟩ : ∃ k, m = k + 1 := ⟨m - 1, by omega⟩
          have hrest : upTo item n us = upTo item m us := ih (by omega) (by omega)
          rw [upTo_succ, upTo_succ, hitem, Option.bind_some, Option.bind_some, hrest]

theorem upTo_eq_many {item : Rule α} (h : Shrinks item) {n : Nat} {ts : List Token}
    (hn : ts.length ≤ n) : upTo item n ts = many item ts := upTo_eq_upTo h hn (Nat.le_refl _)

/-- A repetition always applies: it may read nothing. -/
theorem exists_many (item : Rule α) (ts : List Token) : ∃ items us, many item ts = some (items, us) := by
  cases hitem : item ts with
  | none => exact ⟨[], ts, upTo_of_none hitem _⟩
  | some found =>
      rw [many]
      cases ts.length with
      | zero => exact ⟨[], ts, rfl⟩
      | succ n =>
          rw [upTo_succ, hitem, Option.bind_some]
          cases (upTo item n found.2).map fun others => (found.1 :: others.1, others.2) with
          | none => exact ⟨[], ts, rfl⟩
          | some all => exact ⟨all.1, all.2, rfl⟩

theorem many_of_none {item : Rule α} {ts : List Token} (h : item ts = none) :
    many item ts = some ([], ts) := upTo_of_none h _

theorem many_of_some {item : Rule α} (h : Shrinks item) {ts us : List Token} {a : α}
    (hitem : item ts = some (a, us)) :
    many item ts = (many item us).map fun others => (a :: others.1, others.2) := by
  have hlength := (h ts a us hitem).2
  obtain ⟨items, vs, hrest⟩ := exists_many item us
  rw [← upTo_eq_many h (Nat.le_succ ts.length), upTo_succ, hitem, Option.bind_some,
    upTo_eq_many h (Nat.le_of_lt hlength), hrest]
  rfl

end Rule

end BluespecDocs
