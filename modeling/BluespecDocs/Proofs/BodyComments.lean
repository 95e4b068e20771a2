import BluespecDocs.Lexeme
import BluespecDocs.Proofs.BracketMatching

/-!
Comments in bodies of functions. A comment is passed over like any other token, but no header is read over
it, and no label. So a comment in a body leaves the end of the body where it is, unless it stands inside the
header of a definition in the body: that definition is then no longer read, and its closing word closes the
body around it. Where a comment breaks a label, the name in the label is read as a token of the body.
-/

namespace BluespecDocs

open Rule

namespace Token

section Comment

variable {c : Token} {kind : CommentKind} (hc : c.commentKind? = some kind)

include hc

theorem kind_of_commentKind : c.kind = .comment kind := by
  rw [commentKind?] at hc
  split at hc
  · next other hkind => rw [hkind, Option.some.inj hc]
  · cases hc

theorem isWord_of_comment (name : String) : c.isWord name = false := by
  rw [isWord, kind_of_commentKind hc]
  rfl

theorem isMark_of_comment (m : Mark) : c.isMark m = false := by
  rw [isMark, kind_of_commentKind hc]
  rfl

theorem isTypePart_of_comment : c.isTypePart = false := by
  rw [isTypePart, kind_of_commentKind hc]

theorem isNameIn_of_comment (wanted : LetterCase) : c.isNameIn wanted = false := by
  rw [isNameIn]
  cases hname : Identifier.ofTokenIn wanted c with
  | error mismatch => rfl
  | ok ident =>
      have hword := (Identifier.ofToken_eq_ok.mp (Identifier.ofTokenIn_eq_ok.mp hname).1).1
      rw [kind_of_commentKind hc] at hword
      cases hword

/-- A label is found, or not found, in the same way when a comment is put in behind it. -/
theorem afterLabel_insert {wanted : LetterCase} {m m' rest : List Token}
    (h : afterLabel wanted (m ++ rest) = m' ++ rest) :
    afterLabel wanted (m ++ c :: rest) = m' ++ c :: rest := by
  match m with
  | [] =>
      have hlength := (afterLabel_suffix wanted rest).length_le
      rw [List.nil_append] at h
      rw [h, List.length_append] at hlength
      obtain rfl := List.eq_nil_of_length_eq_zero (by omega : m'.length = 0)
      exact afterLabel_of_not_colon (isMark_of_comment hc _) rest
  | [t] =>
      have hkeep : afterLabel wanted (t :: c :: rest) = t :: c :: rest := by
        rw [afterLabel, isNameIn_of_comment hc, Bool.and_false, if_neg (by decide)]
      have hlone : [t] = m' := afterLabel_cut h
      rw [List.singleton_append, hkeep, ← hlone, List.singleton_append]
  | colon :: name :: m =>
      rw [List.cons_append, List.cons_append, afterLabel] at h ⊢
      split at h
      · next hlabel => rw [if_pos hlabel, List.append_cancel_right h]
      · next hlabel =>
          have hkept : colon :: name :: m = m' := List.append_cancel_right h
          rw [if_neg hlabel, ← hkept]
          rfl

end Comment

theorem afterLabel_cases (wanted : LetterCase) (ts : List Token) :
    afterLabel wanted ts = ts ∨ ∃ colon name rest, ts = colon :: name :: rest ∧
      colon.isMark .colon = true ∧ name.isNameIn wanted = true ∧ afterLabel wanted ts = rest := by
  match ts with
  | [] => exact .inl rfl
  | [t] => exact .inl rfl
  | colon :: name :: rest =>
      rw [afterLabel]
      split
      · next hlabel =>
          obtain ⟨hcolon, hname⟩ := Bool.and_eq_true_iff.mp hlabel
          exact .inr ⟨colon, name, rest, rfl, hcolon, hname, rfl⟩
      · exact .inl rfl

end Token

namespace FunctionHeader

/-- A header is read again when a token is put in behind it. -/
theorem rule_insert {m y rest : List Token} {header : FunctionHeader}
    (h : rule (m ++ rest) = some (header, y ++ rest)) (c : Token) :
    rule (m ++ c :: rest) = some (header, y ++ c :: rest) :=
  headerOver.readsAnywhere (fun _ => Token.not_isTypePart_of_semicolon) h (c :: rest)

/-- A header that starts in front of a comment ends there. -/
theorem rule_of_insert {c : Token} {kind : CommentKind} (hc : c.commentKind? = some kind)
    {m rest us : List Token} {header : FunctionHeader} (h : rule (m ++ c :: rest) = some (header, us)) :
    ∃ y, us = y ++ c :: rest ∧ rule m = some (header, y) := by
  obtain ⟨q, s, hshape, hq, hs⟩ := headerOver.shape h
  rcases List.append_eq_append_iff.mp hshape with ⟨a, rfl, hrest⟩ | ⟨a, rfl, hrest⟩
  · -- The comment would be the semicolon of the header or a token before it.
    cases a with
    | nil =>
        obtain ⟨rfl, -⟩ := List.cons.inj hrest
        rw [Token.isMark_of_comment hc] at hs
        cases hs
    | cons t a =>
        obtain ⟨rfl, -⟩ := List.cons.inj hrest
        have htype := hq c (List.mem_append_right m List.mem_cons_self)
        rw [Token.isTypePart_of_comment hc] at htype
        cases htype
  · cases a with
    | nil =>
        obtain ⟨rfl, -⟩ := List.cons.inj hrest
        rw [Token.isMark_of_comment hc] at hs
        cases hs
    | cons t y =>
        obtain ⟨rfl, rfl⟩ := List.cons.inj hrest
        exact ⟨y, rfl, (headerOver.cut (fun _ => Token.not_isTypePart_of_semicolon) h).1⟩

/-- A header that lacks its end in front of a comment is not read over the comment. -/
theorem rule_insert_none {c : Token} {kind : CommentKind} (hc : c.commentKind? = some kind) {m : List Token}
    (h : rule m = none) (rest : List Token) : rule (m ++ c :: rest) = none := by
  cases hr : rule (m ++ c :: rest) with
  | none => rfl
  | some found =>
      obtain ⟨y, -, hcut⟩ := rule_of_insert hc hr
      rw [h] at hcut
      cases hcut

/-- Tokens that can stand in front of the end of a header are no header. -/
theorem rule_of_typeParts {m : List Token} (h : ∀ t ∈ m, t.isTypePart = true) : rule m = none := by
  cases hr : rule m with
  | none => rfl
  | some found =>
      obtain ⟨q, s, rfl, -, hs⟩ := headerOver.shape hr
      have hpart := h s (List.mem_append_right q List.mem_cons_self)
      rw [Token.not_isTypePart_of_semicolon hs] at hpart
      cases hpart

end FunctionHeader

namespace Function

/-- The tokens of a body from the word on that closes it; none if it is not closed. -/
def closingPlace (ts : List Token) : List Token := ((body rule ts).map Prod.snd).getD []

theorem closingPlace_of_body {ts us : List Token} {inner : List Function}
    (h : body rule ts = some (inner, us)) : closingPlace ts = us := by
  rw [closingPlace, h]
  rfl

theorem exists_body (ts : List Token) : ∃ inner, body rule ts = some (inner, closingPlace ts) := by
  obtain ⟨items, us, hmany⟩ := exists_many (item rule) ts
  have hbody : body rule ts = some (items.filterMap id, us) := by rw [body_apply, hmany]; rfl
  exact ⟨_, by rw [closingPlace_of_body hbody, hbody]⟩

theorem closingPlace_of_item {ts us : List Token} {found : Option Function}
    (h : item rule ts = some (found, us)) : closingPlace ts = closingPlace us := by
  obtain ⟨items, vs, hmany⟩ := exists_many (item rule) us
  rw [closingPlace, closingPlace, body_apply, body_apply, many_of_some (item_shrinks rule_shrinks) h, hmany]
  rfl

theorem closingPlace_nested {ts us : List Token} {f : Function} (h : rule ts = some (f, us)) :
    closingPlace ts = closingPlace us := closingPlace_of_item (item_of_nested h)

theorem closingPlace_filler {t : Token} {ts : List Token} (h : rule (t :: ts) = none)
    (ht : t.isWord "endfunction" = false) : closingPlace (t :: ts) = closingPlace ts :=
  closingPlace_of_item (item_of_filler h ht)

theorem closingPlace_closing {t : Token} (ht : t.isWord "endfunction" = true) (ts : List Token) :
    closingPlace (t :: ts) = t :: ts := by
  rw [closingPlace, body_apply, many_of_none (item_of_closing ht ts)]
  rfl

theorem closingPlace_nil : closingPlace [] = [] := by
  rw [closingPlace, body_apply, many_of_none (item_shrinks rule_shrinks).nil]
  rfl

/-- Induction along the reading of bodies: out of a body behind its closing word, into a definition behind
its header and past it, and over any other token. -/
theorem body_induction {motive : List Token → Prop} (nil : motive [])
    (closing : ∀ t ts, t.isWord "endfunction" = true → motive (Token.afterLabel .lowercase ts) →
      motive (t :: ts))
    (nested : ∀ ts us vs header inner f, FunctionHeader.rule ts = some (header, us) →
      bodyAndClose us = some (inner, vs) → rule ts = some (f, vs) → motive us → motive vs → motive ts)
    (filler : ∀ t ts, t.isWord "endfunction" = false → rule (t :: ts) = none → motive ts → motive (t :: ts))
    (ts : List Token) : motive ts := by
  induction hlength : ts.length using Nat.strongRecOn generalizing ts with
  | ind n ih =>
    subst hlength
    cases ts with
    | nil => exact nil
    | cons t ts =>
        cases hword : t.isWord "endfunction" with
        | true =>
            have hlabel := (Token.afterLabel_suffix .lowercase ts).length_le
            exact closing t ts hword (ih _ (Nat.lt_succ_of_le hlabel) _ rfl)
        | false =>
            cases hr : rule (t :: ts) with
            | none => exact filler t ts hword hr (ih _ (Nat.lt_succ_self _) _ rfl)
            | some found =>
                obtain ⟨header, us, inner, hheader, hclose, -⟩ := rule_eq_some.mp hr
                have hus := (FunctionHeader.rule_shrinks _ _ _ hheader).2
                have hvs := (rule_shrinks _ _ _ hr).2
                exact nested _ us found.2 header inner found.1 hheader hclose hr (ih _ hus _ rfl)
                  (ih _ hvs _ rfl)

theorem isWord_of_closingPlace {ts vs : List Token} {e : Token} (h : closingPlace ts = e :: vs) :
    e.isWord "endfunction" = true := by
  induction ts using body_induction with
  | nil =>
      rw [closingPlace_nil] at h
      cases h
  | closing t ts ht _ =>
      rw [closingPlace_closing ht] at h
      cases h
      exact ht
  | nested ts us vs header inner f _ _ hr _ ih =>
      rw [closingPlace_nested hr] at h
      exact ih h
  | filler t ts ht hr ih =>
      rw [closingPlace_filler hr ht] at h
      exact ih h

theorem bodyAndClose_of_closingPlace {ts vs : List Token} {e : Token} (h : closingPlace ts = e :: vs) :
    ∃ inner, bodyAndClose ts = some (inner, Token.afterLabel .lowercase vs) := by
  obtain ⟨inner, hbody⟩ := exists_body ts
  exact ⟨inner, bodyAndClose_eq_some.mpr ⟨e, vs, by rw [hbody, h], isWord_of_closingPlace h, rfl⟩⟩

theorem closingPlace_of_bodyAndClose {ts us : List Token} {inner : List Function}
    (h : bodyAndClose ts = some (inner, us)) :
    ∃ e vs, closingPlace ts = e :: vs ∧ us = Token.afterLabel .lowercase vs := by
  obtain ⟨e, vs, hbody, -, hus⟩ := bodyAndClose_eq_some.mp h
  exact ⟨e, vs, closingPlace_of_body hbody, hus⟩

theorem rule_ne_none {ts us : List Token} {header : FunctionHeader}
    (hheader : FunctionHeader.rule ts = some (header, us)) (hclose : (bodyAndClose us).isSome = true) :
    rule ts ≠ none := by
  obtain ⟨found, hfound⟩ := Option.isSome_iff_exists.mp hclose
  rw [rule_eq_some.mpr ⟨header, us, found.1, hheader, hfound, rfl⟩]
  exact Option.some_ne_none _

/-- Reading bodies comes to the place in front of the tokens `z`: out of a body behind its closing word with
the label, into a complete definition behind its header, and over any token where no definition is
complete. -/
inductive Visits (z : List Token) : List Token → Prop
  | here : Visits z z
  | closing {t : Token} {ts : List Token} (ht : t.isWord "endfunction" = true)
      (rest : Visits z (Token.afterLabel .lowercase ts)) : Visits z (t :: ts)
  | header {ts us : List Token} {header : FunctionHeader}
      (hheader : FunctionHeader.rule ts = some (header, us)) (hclose : (bodyAndClose us).isSome = true)
      (rest : Visits z us) : Visits z ts
  | filler {t : Token} {ts : List Token} (ht : t.isWord "endfunction" = false) (hr : rule (t :: ts) = none)
      (rest : Visits z ts) : Visits z (t :: ts)

theorem Visits.suffix {z ts : List Token} (h : Visits z ts) : z <:+ ts := by
  induction h with
  | here => exact List.suffix_refl z
  | closing _ _ ih =>
      exact (ih.trans (Token.afterLabel_suffix .lowercase _)).trans (List.suffix_cons _ _)
  | header hheader _ _ ih => exact ih.trans (FunctionHeader.rule_shrinks.keeps _ _ _ hheader)
  | filler _ _ _ ih => exact ih.trans (List.suffix_cons _ _)

namespace Visits

variable {z ts us : List Token} {t : Token}

theorem of_closing (ht : t.isWord "endfunction" = true) (h : Visits z (t :: ts)) :
    z = t :: ts ∨ Visits z (Token.afterLabel .lowercase ts) := by
  generalize hus : t :: ts = us at h
  cases h with
  | here => exact .inl rfl
  | closing _ rest =>
      cases hus
      exact .inr rest
  | header hheader hclose _ =>
      rw [← hus] at hheader
      exact absurd (rule_of_closing ht ts) (rule_ne_none hheader hclose)
  | filler hother =>
      cases hus
      rw [ht] at hother
      cases hother

theorem of_nested {header : FunctionHeader} {found : Function × List Token}
    (hheader : FunctionHeader.rule ts = some (header, us)) (hr : rule ts = some found) (h : Visits z ts) :
    z = ts ∨ Visits z us := by
  cases h with
  | here => exact .inl rfl
  | closing ht _ =>
      rw [rule_of_closing ht] at hr
      cases hr
  | header hother _ rest =>
      rw [hheader] at hother
      cases hother
      exact .inr rest
  | filler _ hnone _ =>
      rw [hnone] at hr
      cases hr

theorem of_filler (ht : t.isWord "endfunction" = false) (hr : rule (t :: ts) = none)
    (h : Visits z (t :: ts)) : z = t :: ts ∨ Visits z ts := by
  generalize hus : t :: ts = us at h
  cases h with
  | here => exact .inl rfl
  | closing hother =>
      cases hus
      rw [ht] at hother
      cases hother
  | header hheader hclose _ =>
      rw [← hus] at hheader
      exact absurd hr (rule_ne_none hheader hclose)
  | filler _ _ rest =>
      cases hus
      exact .inr rest

theorem rest_suffix {front rest : List Token} (h : Visits (front ++ rest) ts) : rest <:+ ts :=
  (List.suffix_append front rest).trans h.suffix

end Visits

theorem exists_eq_cons {t : Token} {ts m rest : List Token} (h : t :: ts = m ++ rest) (hrest : rest <:+ ts) :
    ∃ y, m = t :: y ∧ ts = y ++ rest := by
  obtain ⟨y, rfl⟩ := hrest
  rw [← List.cons_append] at h
  exact ⟨y, (List.append_cancel_right h).symm, rfl⟩

/-- The tokens `front` and `part` are the header of a complete definition in front of the tokens `us`. -/
def CutsHeader (front part us : List Token) : Prop :=
  front ≠ [] ∧ part ≠ [] ∧ (bodyAndClose us).isSome = true ∧
    ∃ header, FunctionHeader.rule (front ++ (part ++ us)) = some (header, us)

/-- The tokens `z` start with a closing word and a label with the given name, and `rest` starts inside the
label. -/
def CutsLabel (z : List Token) (name : Token) (rest : List Token) : Prop :=
  ∃ e colon us, z = e :: colon :: name :: us ∧ e.isWord "endfunction" = true ∧ colon.isMark .colon = true ∧
    name.isNameIn .lowercase = true ∧ (rest = colon :: name :: us ∨ rest = name :: us)

/-- Each place in a token list is one that reading bodies comes to, or inside a header or a label there. -/
theorem exists_visits {ts rest : List Token} (h : rest <:+ ts) :
    ∃ z, Visits z ts ∧ (z = rest ∨ (∃ name, CutsLabel z name rest) ∨
      ∃ front part us, rest = part ++ us ∧ z = front ++ rest ∧ CutsHeader front part us) := by
  induction ts using body_induction with
  | nil =>
      rw [List.suffix_nil.mp h]
      exact ⟨[], .here, .inl rfl⟩
  | closing t ts ht ih =>
      rcases List.suffix_cons_iff.mp h with rfl | h
      · exact ⟨_, .here, .inl rfl⟩
      by_cases hafter : rest <:+ Token.afterLabel .lowercase ts
      · obtain ⟨z, hvisits, hz⟩ := ih hafter
        exact ⟨z, .closing ht hvisits, hz⟩
      rcases Token.afterLabel_cases .lowercase ts with heq | ⟨colon, name, us, rfl, hcolon, hname, heq⟩
      · rw [heq] at hafter
        exact absurd h hafter
      rw [heq] at hafter
      refine ⟨_, .here, .inr (.inl ⟨name, t, colon, us, rfl, ht, hcolon, hname, ?_⟩)⟩
      rcases List.suffix_cons_iff.mp h with rfl | h
      · exact .inl rfl
      rcases List.suffix_cons_iff.mp h with rfl | h
      · exact .inr rfl
      · exact absurd h hafter
  | nested ts us vs header inner f hheader hclose _ ih _ =>
      have hisSome : (bodyAndClose us).isSome = true := by rw [hclose]; rfl
      have hsuffix := FunctionHeader.rule_shrinks.keeps _ _ _ hheader
      rcases List.suffix_or_suffix_of_suffix h hsuffix with hus | hus
      · obtain ⟨z, hvisits, hz⟩ := ih hus
        exact ⟨z, .header hheader hisSome hvisits, hz⟩
      obtain ⟨part, rfl⟩ := hus
      obtain ⟨front, rfl⟩ := h
      by_cases hpart : part = []
      · subst hpart
        exact ⟨us, .header hheader hisSome .here, .inl rfl⟩
      by_cases hfront : front = []
      · subst hfront
        exact ⟨_, .here, .inl rfl⟩
      exact ⟨_, .here, .inr (.inr ⟨front, part, us, rfl, rfl, hfront, hpart, hisSome, header, hheader⟩)⟩
  | filler t ts ht hr ih =>
      rcases List.suffix_cons_iff.mp h with rfl | h
      · exact ⟨_, .here, .inl rfl⟩
      · obtain ⟨z, hvisits, hz⟩ := ih h
        exact ⟨z, .filler ht hr hvisits, hz⟩

/-- A way in which the ends of two bodies may differ that is the same for the bodies around them. -/
structure EndsAlike (Ends : List Token → List Token → Prop) : Prop where
  closed : ∀ {e vs us}, Ends (e :: vs) us → us ≠ []
  outer : ∀ {e vs e' vs'}, Ends (e :: vs) (e' :: vs') →
    Ends (closingPlace (Token.afterLabel .lowercase vs)) (closingPlace (Token.afterLabel .lowercase vs'))

section Insert

variable (Ends : List Token → List Token → Prop) (c : Token) (front rest kept : List Token)

/-- Two places, one of them in a token list with a comment put in, from which bodies end as they should or
the comment is still to come. -/
def Aligned (us us' : List Token) : Prop :=
  Ends (closingPlace us) (closingPlace us') ∨
    ∃ m, us = m ++ rest ∧ us' = m ++ c :: rest ∧ Visits (front ++ rest) us

/-- Two bodies, one of them with a comment put in, end as they should, or they end at the same word in front
of the comment and are aligned behind it. -/
def AlignedEnds (us us' : List Token) : Prop :=
  Ends us us' ∨ ∃ e vs vs', us = e :: vs ∧ us' = e :: vs' ∧ kept <:+ vs ∧
    Aligned Ends c front rest (Token.afterLabel .lowercase vs) (Token.afterLabel .lowercase vs')

end Insert

variable {Ends : List Token → List Token → Prop} {c : Token} {kind : CommentKind}
  {front rest kept final : List Token}

/-- Where no definition is complete, none is with a comment put in behind. -/
theorem rule_insert_none (hc : c.commentKind? = some kind) {t : Token} {m : List Token}
    (hnone : rule (t :: (m ++ rest)) = none) (hfinal : final <:+ rest) (hleads : Leads final (m ++ rest))
    (hclose : (bodyAndClose (m ++ rest)).isSome = true) : rule (t :: (m ++ c :: rest)) = none :=
  rule_of_header_none
    (FunctionHeader.rule_insert_none hc (header_cut_none hnone hfinal hleads hclose) rest)

/-- A body with a comment put in at a place that reading comes to, or behind the tokens `front` there, ends
as it should if it does from that place on. -/
theorem alignedEnds_of_visits (hends : EndsAlike Ends) (hc : c.commentKind? = some kind)
    (hkept : kept <:+ rest) (hfinal : final <:+ rest)
    (hbase : AlignedEnds Ends c front rest kept (closingPlace (front ++ rest))
      (closingPlace (front ++ c :: rest)))
    {ts m vs : List Token} {e : Token} (hts : ts = m ++ rest) (hvisits : Visits (front ++ rest) ts)
    (hplace : closingPlace ts = e :: vs) (hleads : Leads final (Token.afterLabel .lowercase vs)) :
    AlignedEnds Ends c front rest kept (closingPlace ts) (closingPlace (m ++ c :: rest)) := by
  have hhere {ts m : List Token} (hts : ts = m ++ rest) (hz : front ++ rest = ts) :
      AlignedEnds Ends c front rest kept (closingPlace ts) (closingPlace (m ++ c :: rest)) := by
    subst hz
    rwa [← List.append_cancel_right hts]
  -- That closing the bodies leads to `final`, behind the comment, keeps open definitions from being completed.
  induction ts using body_induction generalizing m vs e with
  | nil =>
      rw [closingPlace_nil] at hplace
      cases hplace
  | closing t ts ht ih =>
      rcases hvisits.of_closing ht with hz | hvisits
      · exact hhere hts hz
      obtain ⟨y, hy⟩ := hvisits.rest_suffix
      have hsuffix := hvisits.rest_suffix.trans (Token.afterLabel_suffix .lowercase ts)
      obtain ⟨m, rfl, rfl⟩ := exists_eq_cons hts hsuffix
      have hlabel := Token.afterLabel_insert hc hy.symm
      exact .inr ⟨t, m ++ rest, m ++ c :: rest, closingPlace_closing ht _, closingPlace_closing ht _,
        hkept.trans hsuffix, .inr ⟨y, hy.symm, hlabel, hvisits⟩⟩
  | nested ts us ws header inner f hheader hclose hr ihus ihws =>
      rcases hvisits.of_nested hheader hr with hz | hinside
      · exact hhere hts hz
      subst hts
      obtain ⟨y, rfl⟩ := hinside.rest_suffix
      obtain ⟨e₁, v₁, hplace₁, rfl⟩ := closingPlace_of_bodyAndClose hclose
      rw [closingPlace_nested hr] at hplace ⊢
      obtain ⟨inner', hclose'⟩ := bodyAndClose_of_closingPlace hplace
      -- With the comment put in, the definition is read to wherever its body is closed.
      have hpast {e' : Token} {v' : List Token} (hplace' : closingPlace (y ++ c :: rest) = e' :: v') :
          closingPlace (m ++ c :: rest) = closingPlace (Token.afterLabel .lowercase v') := by
        obtain ⟨inside, hclosed⟩ := bodyAndClose_of_closingPlace hplace'
        exact closingPlace_nested
          (rule_eq_some.mpr ⟨header, _, inside, FunctionHeader.rule_insert hheader c, hclosed, rfl⟩)
      rcases ihus rfl hinside hplace₁ (.close hclose' hleads) with
        hsame | ⟨e', vs₁, vs', heq, hplace', -, hnext⟩
      · rw [hplace₁] at hsame
        obtain ⟨e', v', hplace'⟩ := List.exists_cons_of_ne_nil (hends.closed hsame)
        rw [hplace'] at hsame
        exact .inl (hpast hplace' ▸ hends.outer hsame)
      · rw [hplace₁] at heq
        obtain ⟨rfl, rfl⟩ := List.cons.inj heq
        rw [hpast hplace']
        rcases hnext with hsame | ⟨m', hm, hm', hvisits'⟩
        · exact .inl hsame
        · rw [hm']
          exact ihws hm hvisits' hplace hleads
  | filler t ts ht hr ih =>
      rcases hvisits.of_filler ht hr with hz | hvisits
      · exact hhere hts hz
      obtain ⟨m, rfl, rfl⟩ := exists_eq_cons hts hvisits.rest_suffix
      rw [closingPlace_filler hr ht] at hplace ⊢
      obtain ⟨inner, hclose⟩ := bodyAndClose_of_closingPlace hplace
      have hnone := rule_insert_none hc hr hfinal (.close hclose hleads) (by rw [hclose]; rfl)
      rw [List.cons_append, closingPlace_filler hnone ht]
      exact ih rfl hvisits hplace hleads

/-- A body in which a comment is put in ends as it should, if it is closed behind the comment. -/
theorem ends_of_visits (hends : EndsAlike Ends) (hc : c.commentKind? = some kind) (hkept : kept <:+ rest)
    (hbase : AlignedEnds Ends c front rest kept (closingPlace (front ++ rest))
      (closingPlace (front ++ c :: rest)))
    {m vs : List Token} {e : Token} (hvisits : Visits (front ++ rest) (m ++ rest))
    (hplace : closingPlace (m ++ rest) = e :: vs) (hbehind : e :: vs <:+ kept) :
    Ends (e :: vs) (closingPlace (m ++ c :: rest)) := by
  have hfinal : Token.afterLabel .lowercase vs <:+ rest :=
    (((Token.afterLabel_suffix .lowercase vs).trans (List.suffix_cons e vs)).trans hbehind).trans hkept
  have haligned := alignedEnds_of_visits hends hc hkept hfinal hbase rfl hvisits hplace .here
  rw [hplace] at haligned
  rcases haligned with hsame | ⟨e', vs₁, vs', heq, -, hearly, -⟩
  · exact hsame
  · obtain ⟨rfl, rfl⟩ := List.cons.inj heq
    have hlength := (hbehind.trans hearly).length_le
    rw [List.length_cons] at hlength
    omega

theorem endsAlike_eq : EndsAlike Eq where
  closed h := h ▸ List.cons_ne_nil _ _
  outer h := by
    obtain ⟨rfl, rfl⟩ := List.cons.inj h
    rfl

/-- One body ends where the body around the other does. -/
def EndsEarly (us us' : List Token) : Prop :=
  ∃ e vs, us' = e :: vs ∧ us = closingPlace (Token.afterLabel .lowercase vs)

theorem endsAlike_endsEarly : EndsAlike EndsEarly where
  closed := by
    rintro e vs _ ⟨e', vs', rfl, -⟩
    exact List.cons_ne_nil _ _
  outer := by
    rintro e vs e' vs' ⟨_, _, heq, houter⟩
    obtain ⟨rfl, rfl⟩ := List.cons.inj heq
    exact ⟨e, vs, houter.symm, rfl⟩

theorem closingPlace_skip {t : Token} (hopen : t.isWord "function" = false)
    (hclose : t.isWord "endfunction" = false) (ts : List Token) : closingPlace (t :: ts) = closingPlace ts :=
  closingPlace_filler (Bracket.rule_filler hopen ts) hclose

theorem closingPlace_comment (hc : c.commentKind? = some kind) (ts : List Token) :
    closingPlace (c :: ts) = closingPlace ts :=
  closingPlace_skip (Token.isWord_of_comment hc _) (Token.isWord_of_comment hc _) ts

theorem closingPlace_suffix (ts : List Token) : closingPlace ts <:+ ts := by
  obtain ⟨inner, hbody⟩ := exists_body ts
  exact body_keeps rule_shrinks _ _ _ hbody

section Places

variable {m vs : List Token} {e : Token}

/-- A comment at a place that reading comes to leaves the end of the body where it is. -/
theorem closingPlace_insert (hc : c.commentKind? = some kind) (hvisits : Visits rest (m ++ rest))
    (hplace : closingPlace (m ++ rest) = e :: vs) (hbehind : e :: vs <:+ rest) :
    closingPlace (m ++ c :: rest) = e :: vs :=
  (@ends_of_visits Eq c kind [] rest rest endsAlike_eq hc (List.suffix_refl rest)
    (.inl (closingPlace_comment hc rest).symm) m vs e hvisits hplace hbehind).symm

/-- So does a comment in a label, unless the name in the label is one of the two words. -/
theorem closingPlace_insert_label (hc : c.commentKind? = some kind) {z : List Token} {name : Token}
    (hvisits : Visits z (m ++ rest)) (hlabel : CutsLabel z name rest) (hopen : name.isWord "function" = false)
    (hclose : name.isWord "endfunction" = false) (hplace : closingPlace (m ++ rest) = e :: vs)
    (hbehind : e :: vs <:+ rest) : closingPlace (m ++ c :: rest) = e :: vs := by
  obtain ⟨e', colon, us, rfl, he', hcolon, hname, hrest⟩ := hlabel
  have hafter : Token.afterLabel .lowercase (colon :: name :: us) = us := by
    rw [Token.afterLabel, hcolon, hname]
    rfl
  have hskip : closingPlace (name :: us) = closingPlace us := closingPlace_skip hopen hclose us
  have hskip' (ts : List Token) : closingPlace (colon :: ts) = closingPlace ts :=
    closingPlace_skip (Token.isWord_of_isMark hcolon _) (Token.isWord_of_isMark hcolon _) ts
  have he := isWord_of_closingPlace hplace
  have hbehind_name (h : e :: vs <:+ name :: us) : e :: vs <:+ us := by
    rcases List.suffix_cons_iff.mp h with heq | h
    · rw [(List.cons.inj heq).1, hclose] at he
      cases he
    · exact h
  -- Once the label is broken, its tokens are passed over behind the closing word.
  have hends {x : List Token} (hx : x ++ rest = colon :: name :: us) (hkept : us <:+ rest)
      (hbroken : closingPlace (Token.afterLabel .lowercase (x ++ c :: rest)) = closingPlace us)
      (hbehind : e :: vs <:+ us) : closingPlace (m ++ c :: rest) = e :: vs := by
    have hbase : AlignedEnds Eq c (e' :: x) rest us (closingPlace (e' :: x ++ rest))
        (closingPlace (e' :: x ++ c :: rest)) := by
      refine .inr ⟨e', x ++ rest, x ++ c :: rest, closingPlace_closing he' _, closingPlace_closing he' _,
        hkept.trans (List.suffix_append x rest), .inl ?_⟩
      rw [hx, hafter, hbroken]
    rw [← hx] at hvisits
    exact (ends_of_visits endsAlike_eq hc hkept hbase hvisits hplace hbehind).symm
  rcases hrest with rfl | rfl
  · refine @hends [] rfl ((List.suffix_cons name us).trans (List.suffix_cons colon _)) ?_ (hbehind_name ?_)
    · rw [List.nil_append, Token.afterLabel_of_not_colon (Token.isMark_of_comment hc _),
        closingPlace_comment hc, hskip', hskip]
    · rcases List.suffix_cons_iff.mp hbehind with heq | h
      · rw [(List.cons.inj heq).1, Token.isWord_of_isMark hcolon] at he
        cases he
      · exact h
  · refine @hends [colon] rfl (List.suffix_cons name us) ?_ (hbehind_name hbehind)
    rw [List.singleton_append, Token.afterLabel, Token.isNameIn_of_comment hc, Bool.and_false,
      if_neg (by decide), hskip', closingPlace_comment hc, hskip]

/-- A header that a comment cuts off is passed over. -/
theorem closingPlace_cut_header (hc : c.commentKind? = some kind) (htype : ∀ t ∈ front, t.isTypePart = true)
    (hwords : ∀ t ∈ front, t.isWord "endfunction" = false) (ts : List Token) :
    closingPlace (front ++ c :: ts) = closingPlace ts := by
  induction front with
  | nil => exact closingPlace_comment hc ts
  | cons t front ih =>
      have hnone : rule (t :: (front ++ c :: ts)) = none :=
        rule_of_header_none (FunctionHeader.rule_insert_none hc (FunctionHeader.rule_of_typeParts htype) ts)
      rw [List.cons_append, closingPlace_filler hnone (hwords t List.mem_cons_self)]
      exact ih (fun u hu => htype u (List.mem_cons_of_mem t hu))
        fun u hu => hwords u (List.mem_cons_of_mem t hu)

/-- So is the rest of the header, if no header starts in it. -/
theorem closingPlace_rest_of_header {part us : List Token}
    (hwords : ∀ t ∈ part, t.isWord "endfunction" = false)
    (hnone : ∀ q, q ≠ [] → q <:+ part → FunctionHeader.rule (q ++ us) = none) :
    closingPlace (part ++ us) = closingPlace us := by
  induction part with
  | nil => rfl
  | cons t part ih =>
      have hfiller : rule (t :: (part ++ us)) = none :=
        rule_of_header_none (hnone _ (List.cons_ne_nil t part) (List.suffix_refl _))
      rw [List.cons_append, closingPlace_filler hfiller (hwords t List.mem_cons_self)]
      exact ih (fun u hu => hwords u (List.mem_cons_of_mem t hu))
        fun q hq hsuffix => hnone q hq (hsuffix.trans (List.suffix_cons t part))

/-- A comment inside a header makes the body end early: the closing word of each definition around the header
closes the body around that definition. -/
theorem closingPlace_insert_header (hc : c.commentKind? = some kind) {part us : List Token}
    (hvisits : Visits (front ++ (part ++ us)) (m ++ (part ++ us))) (hheader : CutsHeader front part us)
    (hwords : ∀ t ∈ front ++ part, t.isWord "endfunction" = false)
    (hnone : ∀ q, q ≠ [] → q <:+ part → FunctionHeader.rule (q ++ us) = none)
    (hplace : closingPlace (m ++ (part ++ us)) = e :: vs) (hbehind : e :: vs <:+ part ++ us) :
    ∃ e' vs', closingPlace (m ++ c :: (part ++ us)) = e' :: vs' ∧ e :: vs <:+ vs' := by
  obtain ⟨-, hpart, hclose, header, hheader⟩ := hheader
  obtain ⟨⟨inner, ws⟩, hclose⟩ := Option.isSome_iff_exists.mp hclose
  obtain ⟨e₁, v₁, hplace₁, rfl⟩ := closingPlace_of_bodyAndClose hclose
  have hbroken : closingPlace (front ++ c :: (part ++ us)) = e₁ :: v₁ := by
    rw [closingPlace_cut_header hc ?_ fun t ht => hwords t (List.mem_append_left part ht),
      closingPlace_rest_of_header (fun t ht => hwords t (List.mem_append_right front ht)) hnone, hplace₁]
    obtain ⟨q, s, hshape, hq, -⟩ := FunctionHeader.headerOver.shape hheader
    have hread : front ++ part ++ us = q ++ [s] ++ us := by
      rw [List.append_assoc, List.append_assoc, hshape]
      rfl
    have hfront : front <+: q := by
      rcases List.append_eq_append_iff.mp (List.append_cancel_right hread) with ⟨a, hq, -⟩ | ⟨a, hfront, hs⟩
      · exact ⟨a, hq.symm⟩
      · rcases List.append_eq_singleton_iff.mp hs.symm with ⟨rfl, -⟩ | ⟨-, hempty⟩
        · exact ⟨[], by rw [List.append_nil, hfront, List.append_nil]⟩
        · exact absurd hempty hpart
    exact fun t ht => hq t (hfront.subset ht)
  have hbase : AlignedEnds EndsEarly c front (part ++ us) (part ++ us) (closingPlace (front ++ (part ++ us)))
      (closingPlace (front ++ c :: (part ++ us))) := by
    refine .inl ⟨e₁, v₁, hbroken, ?_⟩
    exact closingPlace_nested (rule_eq_some.mpr ⟨header, us, inner, hheader, hclose, rfl⟩)
  obtain ⟨e', vs', hplace', houter⟩ :=
    ends_of_visits endsAlike_endsEarly hc (List.suffix_refl _) hbase hvisits hplace hbehind
  refine ⟨e', vs', hplace', ?_⟩
  rw [houter]
  exact (closingPlace_suffix _).trans (Token.afterLabel_suffix .lowercase vs')

end Places

/-- The tokens `start` are the header of a function whose body `bs` is closed by the word `e` in front of the
tokens `vs`. -/
def EndsAt (start bs : List Token) (e : Token) (vs : List Token) : Prop :=
  ∃ header inner f, FunctionHeader.rule (start ++ bs) = some (header, bs) ∧
    body rule bs = some (inner, e :: vs) ∧ e.isWord "endfunction" = true ∧
    rule (start ++ bs) = some (f, Token.afterLabel .lowercase vs)

theorem endsAt_iff {start bs vs : List Token} {e : Token} : EndsAt start bs e vs ↔
    (∃ header, FunctionHeader.rule (start ++ bs) = some (header, bs)) ∧ closingPlace bs = e :: vs := by
  constructor
  · rintro ⟨header, inner, f, hheader, hbody, -, -⟩
    exact ⟨⟨header, hheader⟩, closingPlace_of_body hbody⟩
  · rintro ⟨⟨header, hheader⟩, hplace⟩
    obtain ⟨inner, hbody⟩ := exists_body bs
    obtain ⟨inner', hclose⟩ := bodyAndClose_of_closingPlace hplace
    exact ⟨header, inner, _, hheader, by rw [hbody, hplace], isWord_of_closingPlace hplace,
      rule_eq_some.mpr ⟨header, bs, inner', hheader, hclose, rfl⟩⟩

/-- What a comment between the tokens `p` and `rest` of a body does to a function that ends behind it. -/
structure CommentEffect (c : Token) (start p rest : List Token) (e : Token) (vs : List Token) : Prop where
  between : Visits rest (p ++ rest) → EndsAt start (p ++ c :: rest) e vs
  in_label : ∀ z name, Visits z (p ++ rest) → CutsLabel z name rest → name.isWord "function" = false →
    name.isWord "endfunction" = false → EndsAt start (p ++ c :: rest) e vs
  in_header : ∀ front part us, rest = part ++ us → Visits (front ++ rest) (p ++ rest) →
    CutsHeader front part us → (∀ t ∈ front ++ part, t.isWord "endfunction" = false) →
    (∀ q, q ≠ [] → q <:+ part → FunctionHeader.rule (q ++ us) = none) →
      ∃ e' vs', EndsAt start (p ++ c :: rest) e' vs' ∧ e :: vs <:+ vs'
  places : Visits rest (p ++ rest) ∨ (∃ z name, Visits z (p ++ rest) ∧ CutsLabel z name rest) ∨
    ∃ front part us, rest = part ++ us ∧ Visits (front ++ rest) (p ++ rest) ∧ CutsHeader front part us

/-- A comment in the body of a function leaves the end of the function where it is at every place but inside
the headers of the definitions in the body, where it brings the end forward, and inside labels whose name is
one of the two words. -/
theorem comment_in_body {ts us : List Token} {f : Function} (h : rule ts = some (f, us)) :
    ∃ start bs e vs, ts = start ++ bs ∧ EndsAt start bs e vs ∧ us = Token.afterLabel .lowercase vs ∧
      ∀ p rest, bs = p ++ rest → e :: vs <:+ rest → ∀ c : Token, c.commentKind?.isSome = true →
        CommentEffect c start p rest e vs := by
  obtain ⟨header, bs, inner, hheader, hclose, -⟩ := rule_eq_some.mp h
  obtain ⟨start, rfl⟩ := FunctionHeader.rule_shrinks.keeps _ _ _ hheader
  obtain ⟨e, vs, hplace, rfl⟩ := closingPlace_of_bodyAndClose hclose
  refine ⟨start, bs, e, vs, rfl, endsAt_iff.mpr ⟨⟨header, hheader⟩, hplace⟩, rfl, ?_⟩
  rintro p rest rfl hbehind c hcomment
  obtain ⟨kind, hc⟩ := Option.isSome_iff_exists.mp hcomment
  have hstart : ∃ header,
      FunctionHeader.rule (start ++ (p ++ c :: rest)) = some (header, p ++ c :: rest) := by
    rw [← List.append_assoc] at hheader ⊢
    exact ⟨header, FunctionHeader.rule_insert hheader c⟩
  exact {
    between := fun hvisits => endsAt_iff.mpr ⟨hstart, closingPlace_insert hc hvisits hplace hbehind⟩
    in_label := fun z name hvisits hlabel hopen hword =>
      endsAt_iff.mpr ⟨hstart, closingPlace_insert_label hc hvisits hlabel hopen hword hplace hbehind⟩
    in_header := by
      rintro front part us rfl hvisits hcuts hwords hnone
      obtain ⟨e', vs', hplace', hearly⟩ :=
        closingPlace_insert_header hc hvisits hcuts hwords hnone hplace hbehind
      exact ⟨e', vs', endsAt_iff.mpr ⟨hstart, hplace'⟩, hearly⟩
    places := by
      obtain ⟨z, hvisits, rfl | ⟨name, hlabel⟩ | ⟨front, part, us, hrest, rfl, hcuts⟩⟩ :=
        exists_visits (List.suffix_append p rest)
      · exact .inl hvisits
      · exact .inr (.inl ⟨z, name, hvisits, hlabel⟩)
      · exact .inr (.inr ⟨front, part, us, hrest, hvisits, hcuts⟩) }

/-- The word that closes a function. -/
def closingWord (start : Nat) : Token := ⟨.word, "endfunction", ⟨start, start + 11⟩⟩

/-- A comment of one letter. -/
def letterComment (start : Nat) : Token := ⟨.comment .block, "/* c */", ⟨start, start + 7⟩⟩

/-- In a function with another one inside, a comment behind the inner header changes nothing, and one in the
inner header makes the inner closing word close the outer function. -/
theorem comment_in_body_nested :
    ∃ start,
      EndsAt start (Bracket.nameHeader "g" 12 ++ [closingWord 24, closingWord 36]) (closingWord 36) [] ∧
      EndsAt start (Bracket.nameHeader "g" 12 ++ letterComment 23 :: [closingWord 24, closingWord 36])
        (closingWord 36) [] ∧
      ∃ e vs, EndsAt start ((Bracket.nameHeader "g" 12).take 1 ++ letterComment 20 ::
        ((Bracket.nameHeader "g" 12).drop 1 ++ [closingWord 24, closingWord 36])) e vs ∧
        [closingWord 36] <:+ vs := by
  have hrule : (rule (Bracket.nameHeader "f" 0 ++
      (Bracket.nameHeader "g" 12 ++ [closingWord 24, closingWord 36]))).isSome = true := by decide +kernel
  have hheader : FunctionHeader.rule (Bracket.nameHeader "f" 0 ++
      (Bracket.nameHeader "g" 12 ++ [closingWord 24, closingWord 36])) =
        some (⟨⟨"f", .lowercase⟩, none, [], []⟩,
          Bracket.nameHeader "g" 12 ++ [closingWord 24, closingWord 36]) := rfl
  have hplace : closingPlace (Bracket.nameHeader "g" 12 ++ [closingWord 24, closingWord 36]) =
      [closingWord 36] := by decide +kernel
  have hclose : (bodyAndClose [closingWord 24, closingWord 36]).isSome = true := by decide +kernel
  obtain ⟨⟨f, us⟩, hf⟩ := Option.isSome_iff_exists.mp hrule
  obtain ⟨start, bs, e, vs, hts, hends, -, heffect⟩ := comment_in_body hf
  obtain ⟨⟨header, hheader'⟩, hplace'⟩ := endsAt_iff.mp hends
  rw [← hts, hheader] at hheader'
  obtain ⟨-, rfl⟩ := Prod.mk.inj (Option.some.inj hheader')
  rw [hplace] at hplace'
  obtain ⟨rfl, rfl⟩ := List.cons.inj hplace'
  refine ⟨start, hends, ?_, ?_⟩
  · exact (heffect _ _ rfl (by decide) (letterComment 23) rfl).between
      (.header (show FunctionHeader.rule _ = some (⟨⟨"g", .lowercase⟩, none, [], []⟩, _) from rfl)
        hclose .here)
  · refine (heffect ((Bracket.nameHeader "g" 12).take 1) _ rfl (by decide) (letterComment 20) rfl).in_header
      ((Bracket.nameHeader "g" 12).take 1) ((Bracket.nameHeader "g" 12).drop 1) _ rfl .here
      ⟨by decide, by decide, hclose, ⟨⟨"g", .lowercase⟩, none, [], []⟩, rfl⟩ (by decide)
      fun q hq hsuffix => ?_
    rcases List.suffix_cons_iff.mp hsuffix with rfl | hsuffix
    · rfl
    rcases List.suffix_cons_iff.mp hsuffix with rfl | hsuffix
    · rfl
    · exact absurd (List.suffix_nil.mp hsuffix) hq

/-- A comment in the inner header moves the end of the outer function. -/
theorem comment_in_header_moves_end :
    EndsAt (Bracket.nameHeader "f" 0) (Bracket.nameHeader "g" 12 ++ [closingWord 24, closingWord 36])
      (closingWord 36) [] ∧
    ¬ EndsAt (Bracket.nameHeader "f" 0) ((Bracket.nameHeader "g" 12).take 1 ++ letterComment 20 ::
      ((Bracket.nameHeader "g" 12).drop 1 ++ [closingWord 24, closingWord 36])) (closingWord 36) [] ∧
    (rule (Token.lex "function f; function /* c */ g; endfunction endfunction")).map
        (fun found => (found.1.span, found.2)) =
      some (⟨0, 43⟩, [closingWord 44]) := by
  have hplace : closingPlace (Bracket.nameHeader "g" 12 ++ [closingWord 24, closingWord 36]) =
      [closingWord 36] := by decide +kernel
  have hplace' : closingPlace ((Bracket.nameHeader "g" 12).take 1 ++ letterComment 20 ::
      ((Bracket.nameHeader "g" 12).drop 1 ++ [closingWord 24, closingWord 36])) =
        [closingWord 24, closingWord 36] := by decide +kernel
  have hheader : ∃ header, FunctionHeader.rule (Bracket.nameHeader "f" 0 ++
      (Bracket.nameHeader "g" 12 ++ [closingWord 24, closingWord 36])) =
        some (header, Bracket.nameHeader "g" 12 ++ [closingWord 24, closingWord 36]) :=
    ⟨⟨⟨"f", .lowercase⟩, none, [], []⟩, rfl⟩
  refine ⟨endsAt_iff.mpr ⟨hheader, hplace⟩, fun hends => ?_, by decide +kernel⟩
  rw [endsAt_iff, hplace'] at hends
  exact absurd hends.2 (by decide)

end Function

end BluespecDocs
