import BluespecDocs.Proofs.Headers

/-!
Rules that survive a cut behind what they read. Parts of a definition survive it as long as a semicolon is
left between them and the cut, which is so when the definition itself ends with one. Choices hand this on if
the alternative that is passed over goes on failing: because it is a header, or because it starts with
another word.
-/

namespace BluespecDocs

open Rule

variable {α β : Type}

namespace Rule

/-- Places between a longer and a shorter rear of a list that ends in `z`. -/
theorem exists_append_of_suffix {p m z u : List Token} (hm : m ++ z <:+ u) (hu : u <:+ p ++ z) :
    ∃ m', u = m' ++ z ∧ m <:+ m' ∧ m' <:+ p := by
  obtain ⟨a, rfl⟩ := hm
  obtain ⟨b, hb⟩ := hu
  refine ⟨a ++ m, (List.append_assoc a m z).symm, List.suffix_append a m, b, ?_⟩
  apply List.append_cancel_right
  rw [← hb, List.append_assoc, List.append_assoc]

/-- A rule that reads the same when the list is cut off at a place with a semicolon in front of it and
behind what the rule reads. -/
structure CutInside (r : Rule α) : Prop where
  keeps : Keeps r
  cut : ∀ {p z m : List Token} {a : α}, (∃ s ∈ m, s.isMark .semicolon = true) →
    r (p ++ z) = some (a, m ++ z) → r p = some (a, m)

/-- A rule that reads a semicolon, and the same when the list is cut off behind what it reads. -/
structure CutEnd (r : Rule α) : Prop where
  keeps : Keeps r
  cut : ∀ {p z m : List Token} {a : α}, r (p ++ z) = some (a, m ++ z) →
    r p = some (a, m) ∧ ∃ s ∈ p, s.isMark .semicolon = true

theorem CutEnd.cutInside {r : Rule α} (h : CutEnd r) : CutInside r := ⟨h.keeps, fun _ hr => (h.cut hr).1⟩

theorem token_cut {read : Token → Option α} {p z m : List Token} {a : α}
    (h : token read (p ++ z) = some (a, m ++ z)) : token read p = some (a, m) := by
  cases p with
  | nil =>
      have hlength := (shrinks_token read _ _ _ h).2
      rw [List.nil_append, List.length_append] at hlength
      omega
  | cons t p =>
      rw [List.cons_append, token_cons] at h
      rw [token_cons]
      obtain ⟨b, hb, heq⟩ := Option.map_eq_some_iff.mp h
      obtain ⟨rfl, hm⟩ := Prod.mk.inj heq
      rw [hb, ← List.append_cancel_right hm]
      rfl

theorem cutInside_token (read : Token → Option α) : CutInside (token read) :=
  ⟨(shrinks_token read).keeps, fun _ hr => token_cut hr⟩

theorem cutInside_pure (a : α) : CutInside (pure a : Rule α) := by
  refine ⟨keeps_pure a, fun {p z m b} _ hr => ?_⟩
  rw [pure_apply, Option.some.injEq, Prod.mk.injEq] at hr
  rw [pure_apply, hr.1, List.append_cancel_right hr.2]

theorem PlainOver.cutInside {inside : Token → Bool} {r : Rule α} (h : PlainOver inside r) (hkeeps : Keeps r)
    (hsemicolon : ∀ s, s.isMark .semicolon = true → inside s = false) : CutInside r :=
  ⟨hkeeps, fun ⟨s, hmem, hs⟩ hr => h.cut hkeeps ⟨s, hmem, hsemicolon s hs⟩ hr⟩

theorem HeaderOver.cutEnd {inside : Token → Bool} {r : Rule α} (h : HeaderOver inside r) (hkeeps : Keeps r)
    (hsemicolon : ∀ s, s.isMark .semicolon = true → inside s = false) : CutEnd r :=
  ⟨hkeeps, fun hr => h.cut hsemicolon hr⟩

theorem CutInside.bind {r : Rule α} {k : α → Rule β} (h : CutInside r) (hk : ∀ a, CutInside (k a)) :
    CutInside (r >>= k) := by
  refine ⟨h.keeps.bind fun a => (hk a).keeps, fun {p z m b} ⟨s, hmem, hs⟩ hr => ?_⟩
  obtain ⟨a, u, hru, hku⟩ := bind_eq_some.mp hr
  obtain ⟨m', rfl, hm', -⟩ := exists_append_of_suffix ((hk a).keeps _ _ _ hku) (h.keeps _ _ _ hru)
  exact bind_eq_some.mpr ⟨a, m', h.cut ⟨s, hm'.subset hmem, hs⟩ hru, (hk a).cut ⟨s, hmem, hs⟩ hku⟩

theorem CutInside.bind_end {r : Rule α} {k : α → Rule β} (h : CutInside r) (hk : ∀ a, CutEnd (k a)) :
    CutEnd (r >>= k) := by
  refine ⟨h.keeps.bind fun a => (hk a).keeps, fun {p z m b} hr => ?_⟩
  obtain ⟨a, u, hru, hku⟩ := bind_eq_some.mp hr
  obtain ⟨m', rfl, -, hp⟩ := exists_append_of_suffix ((hk a).keeps _ _ _ hku) (h.keeps _ _ _ hru)
  obtain ⟨hcut, s, hmem, hs⟩ := (hk a).cut hku
  exact ⟨bind_eq_some.mpr ⟨a, m', h.cut ⟨s, hmem, hs⟩ hru, hcut⟩, s, hp.subset hmem, hs⟩

theorem cutEnd_semicolon (a : α) : CutEnd (mark .semicolon >>= fun _ => pure a : Rule α) := by
  refine ⟨(shrinks_mark _).keeps.bind fun _ => keeps_pure a, fun {p z m b} hr => ?_⟩
  obtain ⟨_, u, hmark, hpure⟩ := bind_eq_some.mp hr
  cases hpure
  have hcut := token_cut hmark
  obtain ⟨s, rfl, hs⟩ := tokenThat_eq_some.mp hcut
  exact ⟨bind_eq_some.mpr ⟨(), m, hcut, rfl⟩, s, List.mem_cons_self, hs⟩

theorem CutInside.orElse_startsWith {words words' : List String} {r q : Rule α} (hr : CutInside r)
    (hq : CutInside q) (h : StartsWith words r) (h' : StartsWith words' q)
    (hdisjoint : ∀ word ∈ words, word ∉ words') : CutInside (r <|> q) := by
  refine ⟨hr.keeps.orElse hq.keeps, fun hm hrq => ?_⟩
  rcases orElse_eq_some.mp hrq with hsome | ⟨-, hsome⟩
  · exact orElse_eq_some.mpr (Or.inl (hr.cut hm hsome))
  · have hcut := hq.cut hm hsome
    exact orElse_eq_some.mpr (Or.inr ⟨h.eq_none h' hdisjoint hcut, hcut⟩)

theorem CutEnd.orElse_startsWith {words words' : List String} {r q : Rule α} (hr : CutEnd r)
    (hq : CutEnd q) (h : StartsWith words r) (h' : StartsWith words' q)
    (hdisjoint : ∀ word ∈ words, word ∉ words') : CutEnd (r <|> q) := by
  refine ⟨hr.keeps.orElse hq.keeps, fun hrq => ?_⟩
  rcases orElse_eq_some.mp hrq with hsome | ⟨-, hsome⟩
  · obtain ⟨hcut, hp⟩ := hr.cut hsome
    exact ⟨orElse_eq_some.mpr (Or.inl hcut), hp⟩
  · obtain ⟨hcut, hp⟩ := hq.cut hsome
    exact ⟨orElse_eq_some.mpr (Or.inr ⟨h.eq_none h' hdisjoint hcut, hcut⟩), hp⟩

/-- A header that is tried first and fails goes on failing after the cut. -/
theorem HeaderOver.orElse_cutEnd {inside : Token → Bool} {r q : Rule α} (h : HeaderOver inside r)
    (hkeeps : Keeps r) (hsemicolon : ∀ s, s.isMark .semicolon = true → inside s = false) (hq : CutEnd q) :
    CutEnd (r <|> q) := by
  refine ⟨hkeeps.orElse hq.keeps, fun hrq => ?_⟩
  rcases orElse_eq_some.mp hrq with hsome | ⟨hnone, hsome⟩
  · obtain ⟨hcut, hp⟩ := h.cut hsemicolon hsome
    exact ⟨orElse_eq_some.mpr (Or.inl hcut), hp⟩
  · obtain ⟨hcut, hp⟩ := hq.cut hsome
    exact ⟨orElse_eq_some.mpr (Or.inr ⟨h.cut_none hsemicolon hp hnone, hcut⟩), hp⟩

theorem HeaderOver.orElse_cutInside {inside : Token → Bool} {r q : Rule α} (h : HeaderOver inside r)
    (hkeeps : Keeps r) (hsemicolon : ∀ s, s.isMark .semicolon = true → inside s = false)
    (hq : CutInside q) : CutInside (r <|> q) := by
  refine ⟨hkeeps.orElse hq.keeps, fun {p z m a} ⟨s, hmem, hs⟩ hrq => ?_⟩
  rcases orElse_eq_some.mp hrq with hsome | ⟨hnone, hsome⟩
  · exact orElse_eq_some.mpr (Or.inl (h.cut hsemicolon hsome).1)
  · have hcut := hq.cut ⟨s, hmem, hs⟩ hsome
    have hp : ∃ s ∈ p, s.isMark .semicolon = true := ⟨s, (hq.keeps _ _ _ hcut).subset hmem, hs⟩
    exact orElse_eq_some.mpr (Or.inr ⟨h.cut_none hsemicolon hp hnone, hcut⟩)

/-- Items up to a token at which no item starts are read again after a cut. -/
theorem CutInside.many_cut {item : Rule α} (h : CutInside item) (hs : Shrinks item) (n : Nat) :
    ∀ {p z m : List Token} {c : Token} {as : List α}, p.length ≤ n →
      (∃ s ∈ c :: m, s.isMark .semicolon = true) → (∀ ts, item (c :: ts) = none) →
      many item (p ++ z) = some (as, c :: m ++ z) → many item p = some (as, c :: m) := by
  induction n with
  | zero =>
      intro p z m c as hlength _ _ hmany
      have hshort := (hs.keeps.many _ _ _ hmany).length_le
      rw [List.length_append, List.length_append, List.length_cons] at hshort
      omega
  | succ n ih =>
      intro p z m c as hlength hm hc hmany
      cases hitem : item (p ++ z) with
      | none =>
          rw [many_of_none hitem] at hmany
          obtain ⟨rfl, hp⟩ := Prod.mk.inj (Option.some.inj hmany)
          obtain rfl := List.append_cancel_right hp
          exact many_of_none (hc m)
      | some found =>
          obtain ⟨a, u⟩ := found
          rw [many_of_some hs hitem] at hmany
          obtain ⟨⟨others, w⟩, hothers, heq⟩ := Option.map_eq_some_iff.mp hmany
          obtain ⟨rfl, rfl⟩ := Prod.mk.inj heq
          obtain ⟨m', rfl, hsuffix, -⟩ :=
            exists_append_of_suffix (hs.keeps.many _ _ _ hothers) (hs.keeps _ _ _ hitem)
          obtain ⟨s, hmem, hsemi⟩ := hm
          have hcut := h.cut ⟨s, hsuffix.subset hmem, hsemi⟩ hitem
          have hshort := (hs _ _ _ hcut).2
          rw [many_of_some hs hcut, ih (by omega) ⟨s, hmem, hsemi⟩ hc hothers]
          rfl

/-- A block of items survives a cut if none of them starts with its closing mark. -/
theorem CutInside.between_atLeastOne {item : Rule α} (h : CutInside item) (hs : Shrinks item)
    (opening closing : Mark) (hclosing : ∀ c ts, c.isMark closing = true → item (c :: ts) = none) :
    CutInside (between opening closing (atLeastOne item)) := by
  refine (cutInside_token _).bind fun _ =>
    ⟨(hs.atLeastOne.keeps.bind fun _ => (shrinks_mark _).keeps.bind fun _ => keeps_pure _), ?_⟩
  intro p z m as hm hr
  obtain ⟨items, u, hitems, hclose⟩ := bind_eq_some.mp hr
  obtain ⟨_, v, hmark, hpure⟩ := bind_eq_some.mp hclose
  cases hpure
  obtain ⟨c, rfl, hc⟩ := tokenThat_eq_some.mp hmark
  obtain ⟨first, w, hfirst, hrest⟩ := bind_eq_some.mp hitems
  obtain ⟨others, x, hothers, hpure⟩ := bind_eq_some.mp hrest
  cases hpure
  obtain ⟨m', rfl, hsuffix, -⟩ := exists_append_of_suffix
    (show c :: m ++ z <:+ w from hs.keeps.many _ _ _ hothers) (hs.keeps _ _ _ hfirst)
  obtain ⟨s, hmem, hsemi⟩ := hm
  have hmem' : s ∈ c :: m := List.mem_cons_of_mem c hmem
  have hfirst' := h.cut ⟨s, hsuffix.subset hmem', hsemi⟩ hfirst
  have hothers' := h.many_cut hs m'.length (Nat.le_refl _) ⟨s, hmem', hsemi⟩
    (fun ts => hclosing c ts hc) hothers
  exact bind_eq_some.mpr ⟨first :: others, c :: m,
    bind_eq_some.mpr ⟨first, m', hfirst', bind_eq_some.mpr ⟨others, c :: m, hothers', rfl⟩⟩,
    bind_eq_some.mpr ⟨(), m, tokenThat_eq_some.mpr ⟨c, rfl, hc⟩, rfl⟩⟩

/-- A rule that uses itself survives a cut if its definition hands this on. -/
theorem Descends.recursive_cutInside {step : Rule α → Rule α} {words : List String} (h : Descends step)
    (hstart : ∀ r, StartsWith words (step r))
    (hstep : ∀ r, Shrinks r → StartsWith words r → CutInside r → CutInside (step r)) :
    CutInside (recursive step) := by
  have hnested : ∀ n, StartsWith words (nestedTo step n) ∧ CutInside (nestedTo step n) := by
    intro n
    induction n with
    | zero =>
        refine ⟨fun ts found hr => ?_, shrinks_failure.keeps, fun _ hr => ?_⟩
        · cases hr
        · cases hr
    | succ n ih => exact ⟨hstart _, hstep _ (Shrinks.nestedTo h.shrinks n) ih.1 ih.2⟩
  refine ⟨h.recursive_shrinks.keeps, fun {p z m a} hm hr => ?_⟩
  have hlength : p.length ≤ (p ++ z).length := by
    rw [List.length_append]
    omega
  have hcut := (hnested (p ++ z).length).2.cut hm hr
  rwa [h.nestedTo_eq hlength (Nat.le_refl _)] at hcut

end Rule

end BluespecDocs
