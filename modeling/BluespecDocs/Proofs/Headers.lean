import BluespecDocs.Proofs.BlockRules

/-!
Headers. A header reads tokens of some class and then the semicolon that ends it, so it ends at the first
semicolon, and what it reads does not change when tokens behind that semicolon are added or taken away.
-/

namespace BluespecDocs

open Rule

variable {α : Type}

namespace Rule

/-- The same place in one token list, all tokens in front of which pass a test. -/
def ReadOver (inside : Token → Bool) (ts vs vs' : List Token) : Prop :=
  vs = vs' ∧ ∃ q, ts = q ++ vs ∧ ∀ t ∈ q, inside t = true

theorem lockstep_readOver (inside : Token → Bool) (ts : List Token) :
    Lockstep inside (ReadOver inside ts) (ReadOver inside ts) := by
  rintro vs _ ⟨rfl, q, hq, hall⟩
  cases vs with
  | nil => exact Or.inl ⟨rfl, rfl⟩
  | cons t vs =>
      refine Or.inr ⟨t, vs, t, vs, rfl, rfl, .refl t, fun ht => ⟨rfl, q ++ [t], by simpa using hq, ?_⟩⟩
      intro t' ht'
      rcases List.mem_append.mp ht' with hmem | hmem
      · exact hall t' hmem
      · rw [List.mem_singleton.mp hmem]
        exact ht

/-- Places in a token list and in one with more tokens at the end, where a token that fails the test is
still to come in both. -/
def Extended (inside : Token → Bool) (z vs vs' : List Token) : Prop :=
  vs' = vs ++ z ∧ ∃ t ∈ vs, inside t = false

theorem lockstep_extended (inside : Token → Bool) (z : List Token) :
    Lockstep inside (Extended inside z) (Extended inside z) := by
  rintro vs _ ⟨rfl, u, hu, hinside⟩
  cases vs with
  | nil => cases hu
  | cons t vs =>
      refine Or.inr ⟨t, vs, t, vs ++ z, rfl, rfl, .refl t, fun ht => ⟨rfl, u, ?_, hinside⟩⟩
      rcases List.mem_cons.mp hu with rfl | hmem
      · rw [ht] at hinside
        cases hinside
      · exact hmem

/-- What a rule that is unchanged at the end of a longer list leaves there. -/
theorem Parallel.eq_append {R S : List Token → List Token → Prop} {r : Rule α} {ts z : List Token}
    (h : Parallel R S Eq r r) (hR : R ts (ts ++ z)) (hS : ∀ us us', S us us' → us' = us ++ z) :
    r (ts ++ z) = (r ts).map fun found => (found.1, found.2 ++ z) := by
  rcases h.cases hR with ⟨hn, hn'⟩ | ⟨a, us, b, us', ha, hb, hab, hus⟩
  · rw [hn, hn']
    rfl
  · rw [ha, hb, hab, hS us us' hus]
    rfl

theorem eq_of_eq_append {r : Rule α} {p z m : List Token} {a : α}
    (happend : r (p ++ z) = (r p).map fun found => (found.1, found.2 ++ z))
    (h : r (p ++ z) = some (a, m ++ z)) : r p = some (a, m) := by
  rw [happend] at h
  obtain ⟨found, hfound, heq⟩ := Option.map_eq_some_iff.mp h
  obtain ⟨ha, hm⟩ := Prod.mk.inj heq
  rw [hfound, ← ha, ← List.append_cancel_right hm]

/-- What the rule reads off the front of a list it reads there whatever comes at the end of the list. -/
def ReadsAnywhere (r : Rule α) : Prop :=
  ∀ {p z m : List Token} {a : α}, r (p ++ z) = some (a, m ++ z) → ∀ z', r (p ++ z') = some (a, m ++ z')

theorem ReadsAnywhere.cut {r : Rule α} (h : ReadsAnywhere r) {p z m : List Token} {a : α}
    (hr : r (p ++ z) = some (a, m ++ z)) : r p = some (a, m) := by
  have halone := h hr []
  rwa [List.append_nil, List.append_nil] at halone

/-- A rule that reads tokens which pass a test, deciding by kind and text alone. -/
def PlainOver (inside : Token → Bool) (r : Rule α) : Prop :=
  ∀ R : List Token → List Token → Prop, Lockstep inside R R → Parallel R R Eq r r

/-- A rule that reads tokens which pass a test and then a semicolon, deciding by kind and text alone. -/
def HeaderOver (inside : Token → Bool) (r : Rule α) : Prop :=
  ∀ R S : List Token → List Token → Prop, Lockstep inside R R → Lockstep (Token.isMark .semicolon) R S →
    Parallel R S Eq r r

namespace PlainOver

variable {inside : Token → Bool} {r : Rule α}

/-- Tokens cut off behind one that the rule does not read over change nothing. -/
theorem cut (h : PlainOver inside r) (hkeeps : Keeps r) {p z m : List Token} {a : α}
    (hm : ∃ t ∈ m, inside t = false) (hr : r (p ++ z) = some (a, m ++ z)) : r p = some (a, m) := by
  obtain ⟨t, ht, hinside⟩ := hm
  obtain ⟨q, hq⟩ := hkeeps _ _ _ hr
  rw [← List.append_assoc] at hq
  have hp : t ∈ p := List.append_cancel_right hq ▸ List.mem_append_right q ht
  exact eq_of_eq_append ((h _ (lockstep_extended inside z)).eq_append ⟨rfl, t, hp, hinside⟩
    fun _ _ hus => hus.1) hr

end PlainOver

namespace HeaderOver

variable {inside : Token → Bool} {r : Rule α}

/-- What a header has read: tokens of its class and a semicolon. -/
theorem shape (h : HeaderOver inside r) {ts us : List Token} {a : α} (hr : r ts = some (a, us)) :
    ∃ q s, ts = q ++ s :: us ∧ (∀ t ∈ q, inside t = true) ∧ s.isMark .semicolon = true := by
  have hend : Lockstep (Token.isMark .semicolon) (ReadOver inside ts) fun vs _ =>
      ∃ q s, ts = q ++ s :: vs ∧ (∀ t ∈ q, inside t = true) ∧ s.isMark .semicolon = true := by
    rintro vs _ ⟨rfl, q, hq, hall⟩
    cases vs with
    | nil => exact Or.inl ⟨rfl, rfl⟩
    | cons t vs => exact Or.inr ⟨t, vs, t, vs, rfl, rfl, .refl t, fun ht => ⟨q, t, hq, hall, ht⟩⟩
  rcases (h _ _ (lockstep_readOver inside ts) hend).cases ⟨rfl, [], rfl, by simp⟩ with
    ⟨hn, -⟩ | ⟨b, vs, _, _, hb, -, -, hvs⟩
  · rw [hr] at hn
    cases hn
  · rw [hr] at hb
    cases hb
    exact hvs

/-- Tokens added behind one that no header reads over change nothing. -/
theorem append (h : HeaderOver inside r) {ts : List Token} (hts : ∃ t ∈ ts, inside t = false)
    (z : List Token) : r (ts ++ z) = (r ts).map fun found => (found.1, found.2 ++ z) := by
  have hend : Lockstep (Token.isMark .semicolon) (Extended inside z) fun vs vs' => vs' = vs ++ z := by
    rintro vs _ ⟨rfl, u, hu, -⟩
    cases vs with
    | nil => cases hu
    | cons t vs => exact Or.inr ⟨t, vs, t, vs ++ z, rfl, rfl, .refl t, fun _ => rfl⟩
  exact (h _ _ (lockstep_extended inside z) hend).eq_append ⟨rfl, hts⟩ fun _ _ hus => hus

/-- Tokens cut off behind a header change nothing. -/
theorem cut (h : HeaderOver inside r) (hsemicolon : ∀ s, s.isMark .semicolon = true → inside s = false)
    {p z m : List Token} {a : α} (hr : r (p ++ z) = some (a, m ++ z)) :
    r p = some (a, m) ∧ ∃ s ∈ p, s.isMark .semicolon = true := by
  obtain ⟨q, s, hq, -, hs⟩ := h.shape hr
  have happend : p ++ z = (q ++ s :: m) ++ z := by rw [hq, List.append_assoc, List.cons_append]
  have hp : s ∈ p := by
    rw [List.append_cancel_right happend]
    simp
  exact ⟨eq_of_eq_append (h.append ⟨s, hp, hsemicolon s hs⟩ z) hr, s, hp, hs⟩

theorem readsAnywhere (h : HeaderOver inside r) (hsemicolon : ∀ s, s.isMark .semicolon = true → inside s = false) :
    ReadsAnywhere r := by
  intro p z m a hr z'
  obtain ⟨hcut, s, hmem, hs⟩ := h.cut hsemicolon hr
  rw [h.append ⟨s, hmem, hsemicolon s hs⟩, hcut, Option.map_some]

/-- A header that fails still fails when tokens behind a semicolon are cut off. -/
theorem cut_none (h : HeaderOver inside r) (hsemicolon : ∀ s, s.isMark .semicolon = true → inside s = false)
    {p z : List Token} (hp : ∃ s ∈ p, s.isMark .semicolon = true) (hr : r (p ++ z) = none) :
    r p = none := by
  obtain ⟨s, hmem, hs⟩ := hp
  rw [h.append ⟨s, hmem, hsemicolon s hs⟩ z] at hr
  exact Option.map_eq_none_iff.mp hr

end HeaderOver

end Rule

end BluespecDocs
