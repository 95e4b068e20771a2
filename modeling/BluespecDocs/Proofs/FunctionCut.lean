import BluespecDocs.Proofs.FunctionBody

/-!
A function read off the front of a token list is read again when the tokens behind it are cut off. Inside
the function, definitions that are complete stay so by induction. A definition that is not complete, though
its header is, lacks a closing word behind the header; the enclosing function then closes inside that header
or not at all, so that the cut takes away the semicolon the header needs.
-/

namespace BluespecDocs

open Rule

namespace Token

theorem not_isTypePart_of_semicolon {t : Token} (h : t.isMark .semicolon = true) : t.isTypePart = false := by
  rw [isTypePart, kind_of_isMark h]
  rfl

theorem isMark_colon_of_isTypePart {t : Token} (h : t.isTypePart = true) : t.isMark .colon = false := by
  cases hm : t.isMark .colon with
  | false => rfl
  | true =>
      rw [isTypePart, kind_of_isMark hm] at h
      cases h

theorem isMark_colon_of_semicolon {t : Token} (h : t.isMark .semicolon = true) :
    t.isMark .colon = false := by
  rw [isMark, kind_of_isMark h]
  rfl

theorem isWord_of_isMark {m : Mark} {t : Token} (h : t.isMark m = true) (name : String) :
    t.isWord name = false := by
  rw [isWord, kind_of_isMark h]
  rfl

end Token

namespace Rule

theorem spanRead_append_right {m u : List Token} (hsuffix : u <:+ m) (hlength : u.length < m.length)
    (z : List Token) : spanRead (m ++ z) (u ++ z) = spanRead m u := by
  obtain ⟨q, rfl⟩ := hsuffix
  have hq : q ≠ [] := by
    rintro rfl
    exact Nat.lt_irrefl _ hlength
  rw [List.append_assoc, spanRead_append hq, spanRead_append hq]

/-- The first token outside a class cuts a list in one way only. -/
theorem eq_of_append_cons {inside : Token → Bool} {q q' us us' : List Token} {s s' : Token}
    (h : q ++ s :: us = q' ++ s' :: us') (hq : ∀ t ∈ q, inside t = true) (hq' : ∀ t ∈ q', inside t = true)
    (hs : inside s = false) (hs' : inside s' = false) : us = us' := by
  induction q generalizing q' with
  | nil =>
      cases q' with
      | nil =>
          cases h
          rfl
      | cons t q' =>
          cases h
          rw [hq' s List.mem_cons_self] at hs
          cases hs
  | cons t q ih =>
      cases q' with
      | nil =>
          cases h
          rw [hq s' List.mem_cons_self] at hs'
          cases hs'
      | cons t' q' =>
          exact ih (List.cons.inj h).2 (fun u hu => hq u (List.mem_cons_of_mem _ hu))
            fun u hu => hq' u (List.mem_cons_of_mem _ hu)

end Rule

namespace FunctionHeader

theorem headerOver : HeaderOver Token.isTypePart rule := fun _ _ h hend => rule_parallel h h hend

/-- A header ends at the first token that cannot stand in a type, which is a semicolon. -/
theorem rest_eq {q us vs : List Token} {s : Token} {header : FunctionHeader}
    (hq : ∀ t ∈ q, t.isTypePart = true) (hs : s.isMark .semicolon = true)
    (h : rule (q ++ s :: us) = some (header, vs)) : vs = us := by
  obtain ⟨q', s', hshape, hq', hs'⟩ := headerOver.shape h
  exact (eq_of_append_cons hshape hq hq' (Token.not_isTypePart_of_semicolon hs)
    (Token.not_isTypePart_of_semicolon hs')).symm

end FunctionHeader

namespace Function

/-- Closing one body after the other leads from one place to another. -/
inductive Leads (z : List Token) : List Token → Prop
  | here : Leads z z
  | close {ts us : List Token} {inner : List Function} (h : bodyAndClose ts = some (inner, us))
      (rest : Leads z us) : Leads z ts

theorem Leads.suffix {z ts : List Token} (h : Leads z ts) : z <:+ ts := by
  induction h with
  | here => exact List.suffix_refl z
  | close hclose _ ih => exact ih.trans (bodyAndClose_shrinks.keeps _ _ _ hclose)

/-- Where nothing closes behind a header, no function starts inside the header. -/
theorem rule_inside_header {q us : List Token} {s : Token} (hq : ∀ t ∈ q, t.isTypePart = true)
    (hs : s.isMark .semicolon = true) (hnone : bodyAndClose us = none) : rule (q ++ s :: us) = none := by
  cases hr : rule (q ++ s :: us) with
  | none => rfl
  | some found =>
      obtain ⟨header, vs, inner, hheader, hclose, -⟩ := rule_eq_some.mp hr
      rw [FunctionHeader.rest_eq hq hs hheader, hnone] at hclose
      cases hclose

/-- Where nothing closes behind a header, a body that starts inside the header closes there or nowhere. -/
theorem close_inside_header {q us : List Token} {s : Token} (hq : ∀ t ∈ q, t.isTypePart = true)
    (hs : s.isMark .semicolon = true) (hnone : bodyAndClose us = none) :
    bodyAndClose (q ++ s :: us) = none ∨
      ∃ inner q', q' <:+ q ∧ q'.length < q.length ∧
        bodyAndClose (q ++ s :: us) = some (inner, q' ++ s :: us) := by
  induction q with
  | nil =>
      left
      have hfiller := rule_inside_header hq hs hnone
      rw [List.nil_append] at hfiller ⊢
      rw [bodyAndClose_filler hfiller (Token.isWord_of_isMark hs _)]
      exact hnone
  | cons t q ih =>
      have htail : ∀ u ∈ q, u.isTypePart = true := fun u hu => hq u (List.mem_cons_of_mem t hu)
      cases hword : t.isWord "endfunction" with
      | true =>
          refine Or.inr ⟨[], q, List.suffix_cons t q, Nat.lt_succ_self _, ?_⟩
          rw [List.cons_append, bodyAndClose_closing hword]
          cases q with
          | nil => rw [List.nil_append, Token.afterLabel_of_not_colon (Token.isMark_colon_of_semicolon hs)]
          | cons u q =>
              rw [List.cons_append, Token.afterLabel_of_not_colon
                (Token.isMark_colon_of_isTypePart (htail u List.mem_cons_self))]
      | false =>
          have hfiller : rule (t :: (q ++ s :: us)) = none := rule_inside_header hq hs hnone
          rw [List.cons_append, bodyAndClose_filler hfiller hword]
          rcases ih htail with hn | ⟨inner, q', hsuffix, hlength, hsome⟩
          · exact Or.inl hn
          · exact Or.inr ⟨inner, q', hsuffix.trans (List.suffix_cons t q), Nat.lt_succ_of_lt hlength, hsome⟩

/-- From inside a header behind which nothing closes, no place behind the header is reached. -/
theorem not_leads_of_header {z us : List Token} {s : Token} (hs : s.isMark .semicolon = true)
    (hnone : bodyAndClose us = none) (hz : z <:+ us) {q : List Token}
    (hq : ∀ t ∈ q, t.isTypePart = true) : ¬Leads z (q ++ s :: us) := by
  intro hleads
  generalize hts : q ++ s :: us = ts at hleads
  induction hleads generalizing q with
  | here =>
      have hlength := hz.length_le
      rw [← hts, List.length_append, List.length_cons] at hlength
      omega
  | close hclose _ ih =>
      subst hts
      rcases close_inside_header hq hs hnone with hn | ⟨inner, q', hsuffix, -, hsome⟩
      · rw [hn] at hclose
        cases hclose
      · rw [hsome] at hclose
        cases hclose
        exact ih (fun t ht => hq t (hsuffix.subset ht)) rfl

/-- Where a definition is not complete, its header is cut off by a cut in front of a place which closing its
own and the enclosing bodies leads to. -/
theorem header_cut_none {t : Token} {m z w : List Token} (hnone : rule (t :: (m ++ z)) = none) (hw : w <:+ z)
    (hleads : Leads w (m ++ z)) (hclose : (bodyAndClose (m ++ z)).isSome = true) :
    FunctionHeader.rule (t :: m) = none := by
  cases hheader : FunctionHeader.rule (t :: m) with
  | none => rfl
  | some found =>
      obtain ⟨header, us⟩ := found
      obtain ⟨q, s, hshape, hq, hs⟩ := FunctionHeader.headerOver.shape hheader
      have hlong : FunctionHeader.rule (t :: (m ++ z)) = some (header, us ++ z) := by
        have hmem : ∃ u ∈ t :: m, u.isTypePart = false :=
          ⟨s, by rw [hshape]; simp, Token.not_isTypePart_of_semicolon hs⟩
        have happend := FunctionHeader.headerOver.append hmem z
        rw [hheader] at happend
        exact happend
      have hopen : bodyAndClose (us ++ z) = none := by
        cases hbody : bodyAndClose (us ++ z) with
        | none => rfl
        | some closed =>
            have hsome := rule_eq_some.mpr ⟨header, us ++ z, closed.1, hlong, hbody, rfl⟩
            rw [hnone] at hsome
            cases hsome
      -- Nothing closes behind the header, so no place behind the cut would be reached from inside it.
      cases q with
      | nil =>
          cases hshape
          rw [hopen] at hclose
          cases hclose
      | cons u q =>
          rw [List.cons_append, List.cons.injEq] at hshape
          obtain ⟨rfl, rfl⟩ := hshape
          rw [List.append_assoc, List.cons_append] at hleads
          exact absurd hleads (not_leads_of_header hs hopen (hw.trans (List.suffix_append us z))
            fun v hv => hq v (List.mem_cons_of_mem _ hv))

/-- A definition that is not complete is not complete after a cut at a place which closing its own and the
enclosing bodies leads to. -/
theorem rule_cut_none {t : Token} {m z : List Token} (hnone : rule (t :: (m ++ z)) = none)
    (hleads : Leads z (m ++ z)) (hclose : (bodyAndClose (m ++ z)).isSome = true) :
    rule (t :: m) = none :=
  rule_of_header_none (header_cut_none hnone (List.suffix_refl z) hleads hclose)

/-- A definition is complete after a cut that spares its header, its body and its closing word. -/
theorem rule_cut_some {p z us vs : List Token} {header : FunctionHeader} {inner : List Function}
    (hheader : FunctionHeader.rule (p ++ z) = some (header, us ++ z))
    (hclose : bodyAndClose us = some (inner, vs)) :
    rule p = some (⟨header, spanRead (p ++ z) (vs ++ z), inner⟩, vs) := by
  obtain ⟨hcut, -⟩ := FunctionHeader.headerOver.cut (fun _ => Token.not_isTypePart_of_semicolon) hheader
  have hrule := rule_eq_some.mpr ⟨header, us, inner, hcut, hclose, rfl⟩
  obtain ⟨hsuffix, hlength⟩ := rule_shrinks _ _ _ hrule
  rw [spanRead_append_right hsuffix hlength]
  exact hrule

/-- A body closes as before when the tokens are cut off at a place which closing it and the bodies around it
leads to. -/
theorem bodyAndClose_cut {z : List Token} (n : Nat) : ∀ {ts us : List Token} {inner : List Function},
    ts.length ≤ n → bodyAndClose ts = some (inner, us) → Leads z us →
      ∃ m m', ts = m ++ z ∧ us = m' ++ z ∧ bodyAndClose m = some (inner, m') := by
  induction n with
  | zero =>
      intro ts us inner hlength hclose _
      rw [List.eq_nil_of_length_eq_zero (Nat.le_zero.mp hlength), bodyAndClose_nil] at hclose
      cases hclose
  | succ n ih =>
      intro ts us inner hlength hclose hleads
      cases ts with
      | nil =>
          rw [bodyAndClose_nil] at hclose
          cases hclose
      | cons t ts =>
          rw [List.length_cons] at hlength
          cases hword : t.isWord "endfunction" with
          | true =>
              rw [bodyAndClose_closing hword] at hclose
              cases hclose
              obtain ⟨m', hm'⟩ := hleads.suffix
              obtain ⟨label, hlabel⟩ := Token.afterLabel_suffix .lowercase ts
              refine ⟨t :: (label ++ m'), m', ?_, hm'.symm, ?_⟩
              · rw [List.cons_append, List.append_assoc, hm', hlabel]
              · rw [bodyAndClose_closing hword, Token.afterLabel_cut (z := z)]
                rw [List.append_assoc, hm', hlabel]
          | false =>
              cases hr : rule (t :: ts) with
              | none =>
                  rw [bodyAndClose_filler hr hword] at hclose
                  obtain ⟨m, m', rfl, rfl, hm⟩ := ih (by omega) hclose hleads
                  have hcut := rule_cut_none hr (.close hclose hleads) (by rw [hclose]; rfl)
                  exact ⟨t :: m, m', rfl, rfl, (bodyAndClose_filler hcut hword).trans hm⟩
              | some found =>
                  obtain ⟨f, vs⟩ := found
                  obtain ⟨header, ws, inside, hheader, hinside, rfl⟩ := rule_eq_some.mp hr
                  have hws := (FunctionHeader.rule_shrinks _ _ _ hheader).2
                  have hvs := (rule_shrinks _ _ _ hr).2
                  rw [List.length_cons] at hws hvs
                  rw [bodyAndClose_nested hr] at hclose
                  obtain ⟨⟨others, us'⟩, hothers, heq⟩ := Option.map_eq_some_iff.mp hclose
                  cases heq
                  obtain ⟨mw, mv, rfl, rfl, hmw⟩ := ih (by omega) hinside (.close hothers hleads)
                  obtain ⟨mv', m', hmv, rfl, hm'⟩ := ih (by omega) hothers hleads
                  obtain rfl := List.append_cancel_right hmv
                  obtain ⟨q, hq⟩ := FunctionHeader.rule_shrinks.keeps _ _ _ hheader
                  rw [← List.append_assoc] at hq
                  rw [← hq] at hheader
                  refine ⟨q ++ mw, m', hq.symm, rfl, ?_⟩
                  rw [bodyAndClose_nested (rule_cut_some hheader hmw), hm', hq]
                  rfl

/-- A function is read again when the tokens behind it are cut off. -/
theorem rule_cut {p z : List Token} {f : Function} (h : rule (p ++ z) = some (f, z)) :
    rule p = some (f, []) := by
  obtain ⟨header, us, inner, hheader, hclose, rfl⟩ := rule_eq_some.mp h
  obtain ⟨m, m', rfl, hm', hm⟩ := bodyAndClose_cut us.length (Nat.le_refl _) hclose .here
  obtain rfl := List.append_left_eq_self.mp hm'.symm
  exact rule_cut_some hheader hm

end Function

end BluespecDocs
