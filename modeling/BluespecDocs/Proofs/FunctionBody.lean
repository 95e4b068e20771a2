import BluespecDocs.Proofs.Headers

/-!
Bodies of functions. Behind its header a function is a body and a closing word with its label. The two
together unfold token by token: a closing word ends them, a complete definition is one item, and any other
token is passed over.
-/

namespace BluespecDocs

open Rule

namespace Token

/-- Whether a token is an identifier of the given case. -/
def isNameIn (wanted : LetterCase) (t : Token) : Bool := (Identifier.ofTokenIn wanted t).toOption.isSome

/-- The tokens behind the label of a closing word: a colon and a name, where they stand. -/
def afterLabel (wanted : LetterCase) : List Token → List Token
  | colon :: name :: rest =>
    if colon.isMark .colon && name.isNameIn wanted then rest else colon :: name :: rest
  | ts => ts

theorem afterLabel_suffix (wanted : LetterCase) (ts : List Token) : afterLabel wanted ts <:+ ts := by
  match ts with
  | [] => exact List.suffix_refl _
  | [t] => exact List.suffix_refl _
  | colon :: name :: rest =>
      rw [afterLabel]
      split
      · exact (List.suffix_cons name rest).trans (List.suffix_cons colon _)
      · exact List.suffix_refl _

theorem afterLabel_of_not_colon {wanted : LetterCase} {t : Token} (ht : t.isMark .colon = false)
    (ts : List Token) : afterLabel wanted (t :: ts) = t :: ts := by
  cases ts with
  | nil => rfl
  | cons name rest => rw [afterLabel, ht, Bool.false_and, if_neg (by decide)]

/-- A label is found again when the tokens behind it are cut off. -/
theorem afterLabel_cut {wanted : LetterCase} {m m' z : List Token}
    (h : afterLabel wanted (m ++ z) = m' ++ z) : afterLabel wanted m = m' := by
  match m with
  | [] =>
      have hlength := (afterLabel_suffix wanted z).length_le
      rw [List.nil_append] at h
      rw [h, List.length_append] at hlength
      exact (List.eq_nil_of_length_eq_zero (by omega)).symm
  | [t] =>
      cases z with
      | nil =>
          rw [List.append_nil, List.append_nil] at h
          exact h
      | cons name rest =>
          rw [List.singleton_append, afterLabel] at h
          split at h
          · have hlength := congrArg List.length h
            simp only [List.length_append, List.length_cons] at hlength
            omega
          · exact List.append_cancel_right (show [t] ++ name :: rest = m' ++ name :: rest from h)
  | colon :: name :: rest =>
      rw [List.cons_append, List.cons_append, afterLabel] at h
      rw [afterLabel]
      split at h
      · next hlabel =>
          rw [if_pos hlabel]
          exact List.append_cancel_right h
      · next hlabel =>
          rw [if_neg hlabel]
          exact List.append_cancel_right h

end Token

namespace Rule

/-- Reading an optional label leaves what stands behind it. -/
theorem label_apply (wanted : LetterCase) (ts : List Token) :
    ∃ found, (optional (do mark .colon; TokenReader.rule (Identifier.ofTokenIn wanted)) :
      Rule (Option Identifier)) ts = some (found, Token.afterLabel wanted ts) := by
  rw [optional_apply, bind_apply]
  match ts with
  | [] => exact ⟨none, rfl⟩
  | [t] =>
      rw [mark, tokenThat_cons]
      split
      · exact ⟨none, rfl⟩
      · exact ⟨none, rfl⟩
  | colon :: name :: rest =>
      rw [mark, tokenThat_cons, Token.afterLabel]
      cases hcolon : colon.isMark .colon with
      | false => exact ⟨none, rfl⟩
      | true =>
          rw [if_pos rfl, Option.bind_some, TokenReader.rule, token_cons, Token.isNameIn]
          cases hname : (Identifier.ofTokenIn wanted name).toOption with
          | none => exact ⟨none, rfl⟩
          | some ident => exact ⟨some ident, rfl⟩

theorem closed_eq_some {closing : String} {wanted : LetterCase} {ts us : List Token} {a : Unit} :
    closed closing (TokenReader.rule (Identifier.ofTokenIn wanted)) ts = some (a, us) ↔
      ∃ t vs, ts = t :: vs ∧ t.isWord closing = true ∧ us = Token.afterLabel wanted vs := by
  rw [closed, bind_eq_some]
  constructor
  · rintro ⟨_, vs, hword, hlabel⟩
    obtain ⟨t, hts, ht⟩ := tokenThat_eq_some.mp hword
    obtain ⟨found, hfound⟩ := label_apply wanted vs
    obtain ⟨found', ws, hws, hpure⟩ := bind_eq_some.mp hlabel
    rw [hfound] at hws
    cases hws
    cases hpure
    exact ⟨t, vs, hts, ht, rfl⟩
  · rintro ⟨t, vs, hts, ht, rfl⟩
    obtain ⟨found, hfound⟩ := label_apply wanted vs
    exact ⟨(), vs, tokenThat_eq_some.mpr ⟨t, hts, ht⟩, bind_eq_some.mpr ⟨found, _, hfound, rfl⟩⟩

/-- A block is a header, a body without the closing word, and this word with its label. -/
theorem block_eq_some {α : Type} {header : Rule α} {closing : String} {wanted : LetterCase} {ts vs : List Token}
    {a : α} :
    block header closing (TokenReader.rule (Identifier.ofTokenIn wanted)) ts = some (a, vs) ↔
      ∃ body word tail, header ts = some (a, body ++ word :: tail) ∧ (∀ t ∈ body, t.isWord closing = false) ∧
        word.isWord closing = true ∧ vs = Token.afterLabel wanted tail := by
  constructor
  · intro h
    obtain ⟨_, us, hheader, hrest⟩ := bind_eq_some.mp h
    obtain ⟨_, rest, hskip, hrest⟩ := bind_eq_some.mp hrest
    obtain ⟨_, _, hclosed, hpure⟩ := bind_eq_some.mp hrest
    cases hpure
    obtain ⟨word, tail, rfl, hword, rfl⟩ := closed_eq_some.mp hclosed
    have hdrop : us.dropWhile (fun t => !t.isWord closing) = word :: tail :=
      congrArg Prod.snd (Option.some.inj hskip)
    refine ⟨us.takeWhile fun t => !t.isWord closing, word, tail, ?_, fun t ht => ?_, hword, rfl⟩
    · rw [← hdrop, List.takeWhile_append_dropWhile]
      exact hheader
    · simpa using List.all_eq_true.mp List.all_takeWhile t ht
  · rintro ⟨body, word, tail, hheader, hbody, hword, rfl⟩
    refine bind_eq_some.mpr ⟨a, _, hheader, bind_eq_some.mpr ⟨(), word :: tail, ?_, ?_⟩⟩
    · rw [skipTo, List.dropWhile_append_of_pos fun t ht => by rw [hbody t ht]; rfl,
        List.dropWhile_cons_of_neg (by rw [hword]; decide)]
    · exact bind_eq_some.mpr ⟨(), _, closed_eq_some.mpr ⟨word, tail, rfl, hword, rfl⟩, rfl⟩

end Rule

namespace Function

/-- The body of a function and the closing word with its label, behind the header. -/
def bodyAndClose : Rule (List Function) := do
  let inner ← body rule
  closed "endfunction" Identifier.lowercase
  return inner

theorem bodyAndClose_eq_some {ts us : List Token} {inner : List Function} :
    bodyAndClose ts = some (inner, us) ↔ ∃ t vs, body rule ts = some (inner, t :: vs) ∧
      t.isWord "endfunction" = true ∧ us = Token.afterLabel .lowercase vs := by
  rw [bodyAndClose, bind_eq_some]
  constructor
  · rintro ⟨inner', ws, hbody, hclose⟩
    obtain ⟨_, us', hclosed, hpure⟩ := bind_eq_some.mp hclose
    cases hpure
    obtain ⟨t, vs, rfl, ht, hus⟩ := closed_eq_some.mp hclosed
    exact ⟨t, vs, hbody, ht, hus⟩
  · rintro ⟨t, vs, hbody, ht, hus⟩
    exact ⟨inner, t :: vs, hbody,
      bind_eq_some.mpr ⟨(), us, closed_eq_some.mpr ⟨t, vs, rfl, ht, hus⟩, rfl⟩⟩

/-- A function is a header, a body and a closing word. -/
theorem rule_eq_some {ts vs : List Token} {f : Function} :
    rule ts = some (f, vs) ↔ ∃ header us inner, FunctionHeader.rule ts = some (header, us) ∧
      bodyAndClose us = some (inner, vs) ∧ f = ⟨header, spanRead ts vs, inner⟩ := by
  rw [rule_eq, level, bind_eq_some]
  constructor
  · rintro ⟨⟨⟨header, inner⟩, span⟩, ws, hspanned, hpure⟩
    cases hpure
    obtain ⟨hparts, rfl⟩ := spanned_eq_some.mp hspanned
    obtain ⟨header', us, hheader, hrest⟩ := bind_eq_some.mp hparts
    obtain ⟨inner', us', hbody, hclose⟩ := bind_eq_some.mp hrest
    obtain ⟨_, ws, hclosed, hpair⟩ := bind_eq_some.mp hclose
    cases hpair
    exact ⟨header, us, inner, hheader,
      bind_eq_some.mpr ⟨inner, us', hbody, bind_eq_some.mpr ⟨(), vs, hclosed, rfl⟩⟩, rfl⟩
  · rintro ⟨header, us, inner, hheader, hrest, rfl⟩
    obtain ⟨inner', us', hbody, hclose⟩ := bind_eq_some.mp hrest
    obtain ⟨_, ws, hclosed, hpure⟩ := bind_eq_some.mp hclose
    cases hpure
    refine ⟨((header, inner), spanRead ts vs), vs, spanned_eq_some.mpr ⟨?_, rfl⟩, rfl⟩
    exact bind_eq_some.mpr ⟨header, us, hheader,
      bind_eq_some.mpr ⟨inner, us', hbody, bind_eq_some.mpr ⟨(), vs, hclosed, rfl⟩⟩⟩

theorem rule_of_header_none {ts : List Token} (h : FunctionHeader.rule ts = none) : rule ts = none := by
  cases hr : rule ts with
  | none => rfl
  | some found =>
      obtain ⟨header, us, inner, hheader, -, -⟩ := rule_eq_some.mp hr
      rw [h] at hheader
      cases hheader

theorem rule_of_closing {t : Token} (ht : t.isWord "endfunction" = true) (ts : List Token) :
    rule (t :: ts) = none := by
  cases hr : rule (t :: ts) with
  | none => rfl
  | some found =>
      obtain ⟨t', us, hcons, word, hmem, hword⟩ := rule_startsWith _ found hr
      cases hcons
      rw [List.mem_singleton.mp hmem] at hword
      exact absurd (Token.eq_of_isWord ht hword) (by decide)

theorem item_of_nested {ts us : List Token} {f : Function} (h : rule ts = some (f, us)) :
    item rule ts = some (some f, us) := by
  rw [item, orElse_apply, map_apply, h]
  rfl

theorem item_of_filler {t : Token} {ts : List Token} (h : rule (t :: ts) = none)
    (ht : t.isWord "endfunction" = false) : item rule (t :: ts) = some (none, ts) := by
  have hfiller : filler (t :: ts) = some ((), ts) :=
    tokenThat_eq_some.mpr ⟨t, rfl, by rw [ht]; rfl⟩
  rw [item, orElse_apply, map_apply, h, bind_apply, hfiller]
  rfl

theorem item_of_closing {t : Token} (ht : t.isWord "endfunction" = true) (ts : List Token) :
    item rule (t :: ts) = none := by
  have hfiller : filler (t :: ts) = none := by
    rw [filler, tokenThat_cons, ht]
    rfl
  rw [item, orElse_apply, map_apply, rule_of_closing ht, bind_apply, hfiller]
  rfl

theorem body_apply (nested : Rule Function) (ts : List Token) :
    body nested ts = (many (item nested) ts).map fun found => (found.1.filterMap id, found.2) := by
  change (many (item nested) >>= fun items => pure (items.filterMap id)) ts = _
  rw [bind_apply]
  cases many (item nested) ts <;> rfl

theorem bodyAndClose_apply (ts : List Token) :
    bodyAndClose ts = (body rule ts).bind fun found =>
      (closed "endfunction" Identifier.lowercase found.2).map fun closed => (found.1, closed.2) := by
  rw [bodyAndClose, bind_apply]
  congr 1
  funext found
  rw [bind_apply]
  cases closed "endfunction" Identifier.lowercase found.2 <;> rfl

theorem bodyAndClose_nil : bodyAndClose [] = none := by
  rw [bodyAndClose_apply, body_apply, many_of_none (item_shrinks rule_shrinks).nil]
  rfl

theorem bodyAndClose_closing {t : Token} (ht : t.isWord "endfunction" = true) (ts : List Token) :
    bodyAndClose (t :: ts) = some ([], Token.afterLabel .lowercase ts) := by
  refine bodyAndClose_eq_some.mpr ⟨t, ts, ?_, ht, rfl⟩
  rw [body_apply, many_of_none (item_of_closing ht ts)]
  rfl

theorem bodyAndClose_nested {ts us : List Token} {f : Function} (h : rule ts = some (f, us)) :
    bodyAndClose ts = (bodyAndClose us).map fun found => (f :: found.1, found.2) := by
  rw [bodyAndClose_apply, bodyAndClose_apply, body_apply, body_apply,
    many_of_some (item_shrinks rule_shrinks) (item_of_nested h)]
  obtain ⟨items, vs, hmany⟩ := exists_many (item rule) us
  rw [hmany]
  change Option.map _ (closed _ _ vs) = Option.map _ (Option.map _ (closed _ _ vs))
  rw [Option.map_map]
  rfl

theorem bodyAndClose_filler {t : Token} {ts : List Token} (h : rule (t :: ts) = none)
    (ht : t.isWord "endfunction" = false) : bodyAndClose (t :: ts) = bodyAndClose ts := by
  rw [bodyAndClose_apply, bodyAndClose_apply, body_apply, body_apply,
    many_of_some (item_shrinks rule_shrinks) (item_of_filler h ht)]
  obtain ⟨items, vs, hmany⟩ := exists_many (item rule) ts
  rw [hmany]
  rfl

theorem bodyAndClose_shrinks : Shrinks bodyAndClose := by
  refine (body_keeps rule_shrinks).bind_shrinks fun inner => ?_
  refine (closed_shrinks "endfunction" Identifier.lowercase_shrinks.keeps).bind fun _ => ?_
  exact keeps_pure inner

end Function

end BluespecDocs
