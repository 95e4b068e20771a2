import BluespecDocs.Proofs.CommentBodies
import BluespecDocs.Proofs.LayoutInsertion

/-!
Line endings. With a carriage return put in front of every newline a text has the same tokens on the same
lines, up to carriage returns at the ends of line comments and of strings that are not closed, and inside block
comments. None of them gets into a document, so the document is the same up to byte offsets. A newline right
behind a backslash does not end a line comment, and with a carriage return between the two it would; so there
must be none.
-/

namespace BluespecDocs

open Text Token

namespace Text

/-- A text with a carriage return put in front of every newline. -/
def crlf (cs : List Char) : List Char := cs.flatMap fun c => if c = '\n' then ['\r', '\n'] else [c]

/-- No newline of a text stands right behind a backslash. -/
def Unescaped (cs : List Char) : Prop := ¬ ['\\', '\n'] <:+: cs

instance (cs : List Char) : Decidable (Unescaped cs) := inferInstanceAs (Decidable (¬ _))

theorem Unescaped.right {a b : List Char} (h : Unescaped (a ++ b)) : Unescaped b :=
  fun hfound => h (hfound.trans (List.suffix_append a b).isInfix)

theorem Unescaped.tail {c : Char} {cs : List Char} (h : Unescaped (c :: cs)) : Unescaped cs := right (a := [c]) h

theorem crlf_nil : crlf [] = [] := rfl

theorem crlf_newline (cs : List Char) : crlf ('\n' :: cs) = '\r' :: '\n' :: crlf cs := rfl

theorem crlf_cons {c : Char} (hc : c ≠ '\n') (cs : List Char) : crlf (c :: cs) = c :: crlf cs := by
  rw [crlf, List.flatMap_cons, if_neg hc]
  rfl

theorem crlf_append (a b : List Char) : crlf (a ++ b) = crlf a ++ crlf b := List.flatMap_append

theorem crlf_of_not_mem {l : List Char} (h : '\n' ∉ l) : crlf l = l := by
  induction l with
  | nil => rfl
  | cons c l ih =>
      obtain ⟨hc, hl⟩ := List.ne_and_not_mem_of_not_mem_cons h
      rw [crlf_cons hc.symm, ih hl]

theorem head_crlf {c : Char} (hc : c ≠ '\r') (hc' : c ≠ '\n') (cs : List Char) :
    (crlf cs).head? = some c ↔ cs.head? = some c := by
  cases cs with
  | nil => rfl
  | cons d cs =>
      by_cases hd : d = '\n'
      · subst hd
        simp [crlf_newline, hc.symm, hc'.symm]
      · rw [crlf_cons hd, List.head?_cons, List.head?_cons]

theorem head_crlf_ne_newline (cs : List Char) : (crlf cs).head? ≠ some '\n' := by
  cases cs with
  | nil => simp [crlf]
  | cons d cs =>
      by_cases hd : d = '\n'
      · subst hd
        simp [crlf_newline]
      · rw [crlf_cons hd, List.head?_cons]
        exact fun h => hd (Option.some.inj h)

theorem count_crlf (cs : List Char) : (crlf cs).count '\n' = cs.count '\n' := by
  induction cs with
  | nil => rfl
  | cons c cs ih =>
      by_cases hc : c = '\n'
      · subst hc
        rw [crlf_newline, List.count_cons_of_ne (by decide), List.count_cons_self, List.count_cons_self, ih]
      · rw [crlf_cons hc, List.count_cons_of_ne hc, List.count_cons_of_ne hc, ih]

theorem dropEndWhile_crlf {test : Char → Bool} (hnewline : test '\n' = false) (cs : List Char) :
    dropEndWhile test (crlf cs) = crlf (dropEndWhile test cs) := by
  induction cs using List.reverseRecOn with
  | nil => rfl
  | append_singleton cs c ih =>
      rw [crlf_append]
      by_cases hc : c = '\n'
      · have hend : crlf [c] = ['\r'] ++ ['\n'] := by rw [hc]; rfl
        rw [hend, ← List.append_assoc, dropEndWhile_concat_of_neg hnewline, hc,
          dropEndWhile_concat_of_neg hnewline, crlf_append, List.append_assoc]
        rfl
      · rw [crlf_of_not_mem (l := [c]) (by simpa using Ne.symm hc)]
        cases htest : test c with
        | true => rw [dropEndWhile_concat_of_pos htest, dropEndWhile_concat_of_pos htest, ih]
        | false =>
            rw [dropEndWhile_concat_of_neg htest, dropEndWhile_concat_of_neg htest, crlf_append,
              crlf_of_not_mem (l := [c]) (by simpa using Ne.symm hc)]

theorem lines_crlf (cs : List Char) : List.Forall₂ SameLine (lines cs) (lines (crlf cs)) := by
  fun_induction lines cs with
  | case1 => exact .nil
  | case2 cs ih =>
      -- Of two carriage returns in front of a newline only the second belongs to the line ending.
      have hlines : lines (crlf ('\r' :: '\n' :: cs)) = ['\r'] :: lines (crlf cs) := by
        rw [crlf_cons (by decide), crlf_newline, lines_cons_of_ne (by decide) (by simp), lines]
        rfl
      rw [hlines]
      exact .cons (.inr rfl) ih
  | case3 cs hreturn ih =>
      rw [crlf_newline, lines]
      exact .cons (.inl rfl) ih
  | case4 c cs hreturn hc ih =>
      rw [crlf_cons hc, lines_cons_of_ne hc (head_crlf_ne_newline cs)]
      exact forall₂_consFirst c (.inl rfl) (fun _ _ => SameLine.cons c) ih

end Text

namespace Comment

theorem dropBlank_concat (cs : List Char) : dropBlank (cs ++ ['\r']) = dropBlank cs ++ ['\r'] := by
  cases cs with
  | nil => rfl
  | cons c cs =>
      rw [List.cons_append, dropBlank, dropBlank]
      split <;> rfl

/-- A carriage return at the end of a line is no part of its mark. -/
theorem withoutMark_concat {skip : Char → Bool} {mark : List Char} (hne : mark ≠ []) (hmark : '\r' ∉ mark)
    (line : List Char) : withoutMark skip mark (line ++ ['\r']) = withoutMark skip mark line ++ ['\r'] := by
  by_cases hmarked : ∃ body, line.dropWhile skip = mark ++ body
  · obtain ⟨body, hbody⟩ := hmarked
    have hreturn : (line ++ ['\r']).dropWhile skip = mark ++ (body ++ ['\r']) := by
      rw [List.dropWhile_append, hbody, if_neg (by simp [hne]), List.append_assoc]
    rw [withoutMark_of_append hbody, withoutMark_of_append hreturn, dropBlank_concat]
  · have hnone : ∀ body, (line ++ ['\r']).dropWhile skip ≠ mark ++ body := by
      intro body hbody
      rw [List.dropWhile_append] at hbody
      split at hbody
      · obtain ⟨c, hc⟩ := List.exists_mem_of_ne_nil mark hne
        have hmem := (List.dropWhile_suffix skip).mem (hbody ▸ List.mem_append_left body hc)
        exact hmark (List.mem_singleton.mp hmem ▸ hc)
      · rcases List.eq_nil_or_concat body with rfl | ⟨front, c, rfl⟩
        · rw [List.append_nil] at hbody
          exact hmark (hbody ▸ List.mem_append_right _ (List.mem_singleton_self _))
        · rw [List.concat_eq_append, ← List.append_assoc] at hbody
          exact hmarked ⟨front, List.append_inj_left' hbody rfl⟩
    rw [withoutMark_of_ne hnone, withoutMark_of_ne fun body hbody => hmarked ⟨body, hbody⟩]

theorem withoutSlashes_concat (line : List Char) :
    withoutSlashes (line ++ ['\r']) = withoutSlashes line ++ ['\r'] := by
  rw [withoutSlashes_eq, withoutSlashes_eq, withoutMark_concat (by decide) (by decide)]

theorem withoutGutter_concat (line : List Char) :
    withoutGutter (line ++ ['\r']) = withoutGutter line ++ ['\r'] := by
  rw [withoutGutter_eq, withoutGutter_eq, withoutMark_concat (by decide) (by decide)]

theorem withoutOpen_concat (line : List Char) : withoutOpen (line ++ ['\r']) = withoutOpen line ++ ['\r'] := by
  rw [withoutOpen_eq, withoutOpen_eq, withoutMark_concat (by decide) (by decide)]

theorem lineBody_concat {l : List Char} (h : '\n' ∉ l) : lineBody (l ++ ['\r']) = lineBody l := by
  have h' : '\n' ∉ l ++ ['\r'] := by simpa using h
  rw [lineBody_of_not_mem h, lineBody_of_not_mem h', trimEnd_eq_of_sameLine withoutSlashes_concat (.inr rfl)]

/-- Carriage returns in front of newlines do not get into the body of a block comment. -/
theorem blockBody_crlf (b : List Char) : blockBody (crlf b ++ ['*', '/']) = blockBody (b ++ ['*', '/']) := by
  have hclose : withoutClose (crlf b ++ ['*', '/']) = crlf (withoutClose (b ++ ['*', '/'])) := by
    rw [withoutClose_append_close, withoutClose_append_close, dropEndWhile_crlf (by decide),
      dropEndWhile_crlf (by decide)]
  have hlines : (blockLines (crlf b ++ ['*', '/'])).map trimEnd = (blockLines (b ++ ['*', '/'])).map trimEnd := by
    have hsame := lines_crlf (withoutClose (b ++ ['*', '/']))
    rw [blockLines, blockLines, hclose]
    generalize lines (withoutClose (b ++ ['*', '/'])) = ls, lines (crlf (withoutClose (b ++ ['*', '/']))) = ls'
      at hsame ⊢
    cases hsame with
    | nil => rfl
    | cons hline hrest =>
        simp only [List.map_cons]
        rw [trimEnd_eq_of_sameLine withoutOpen_concat hline, map_trimEnd_of_sameLine withoutGutter_concat hrest]
  rw [blockBody, blockBody, hlines]

end Comment

namespace Text

/-- The carriage return that gets in front of a text. -/
def returns (cs : List Char) : List Char := if cs.head? = some '\n' then ['\r'] else []

theorem returns_newline (cs : List Char) : returns ('\n' :: cs) = ['\r'] := rfl

theorem returns_of_ne {cs : List Char} (h : cs.head? ≠ some '\n') : returns cs = [] := if_neg h

theorem returns_begins (cs : List Char) : returns cs <+: crlf cs := by
  rw [returns]
  split
  · next h =>
      obtain ⟨ds, rfl⟩ := List.head?_eq_some_iff.mp h
      exact ⟨'\n' :: crlf ds, rfl⟩
  · exact List.nil_prefix

theorem eq_return_of_mem {c : Char} {cs : List Char} (h : c ∈ returns cs) : c = '\r' := by
  rw [returns] at h
  split at h
  · exact List.mem_singleton.mp h
  · cases h

end Text

namespace Lexeme

/-- A reach over `l`, where no newline is, that takes in the carriage return put in front of what stands
behind. -/
structure ReachesOver (reach : List Char → Nat) (l r : List Char) : Prop where
  newline : '\n' ∉ l
  plain : reach (l ++ r) = l.length
  crlf : reach (l ++ Text.crlf r) = (l ++ returns r).length

theorem ReachesOver.nil {reach : List Char → Nat} {r : List Char} (hplain : reach r = 0)
    (hcrlf : reach (Text.crlf r) = (returns r).length) : ReachesOver reach [] r := ⟨by simp, hplain, hcrlf⟩

theorem exists_lineTail_crlf {cs : List Char} (h : Unescaped cs) :
    ∃ l r, cs = l ++ r ∧ ReachesOver lineTail l r := by
  fun_induction lineTail cs with
  | case1 cs => exact absurd ⟨[], cs, rfl⟩ h
  | case2 cs hlone =>
      refine ⟨[], '\n' :: cs, rfl, .nil (lineTail_newline cs) ?_⟩
      rw [crlf_newline, lineTail, lineTail_newline, if_neg (by decide)]
      · rfl
      · rintro _ ⟨⟩
  | case3 c cs hlone hc ih =>
      obtain ⟨l, r, rfl, hreach⟩ := ih h.tail
      refine ⟨c :: l, r, rfl, ?_, ?_, ?_⟩
      · exact List.not_mem_cons_of_ne_of_not_mem (Ne.symm hc) hreach.newline
      · rw [List.cons_append, lineTail.eq_2 _ _ hlone, if_neg hc, hreach.plain, Nat.add_comm]
        rfl
      · have hhead := head_crlf_ne_newline (l ++ r)
        rw [crlf_append, crlf_of_not_mem hreach.newline] at hhead
        rw [List.cons_append, lineTail_cons_of_ne hc hhead, hreach.crlf, Nat.add_comm]
        rfl
  | case4 => exact ⟨[], [], rfl, .nil rfl rfl⟩

theorem exists_stringBody_crlf {cs : List Char} (h : Unescaped cs) :
    ∃ l r, cs = l ++ r ∧ ReachesOver stringBody l r := by
  fun_induction stringBody cs with
  | case1 cs => exact absurd ⟨[], cs, rfl⟩ h
  | case2 c cs hc ih =>
      obtain ⟨l, r, rfl, hreach⟩ := ih h.tail.tail
      refine ⟨'\\' :: c :: l, r, rfl, ?_, ?_, ?_⟩
      · simp [Ne.symm hc, hreach.newline]
      · rw [List.cons_append, List.cons_append, stringBody_escape, if_neg hc, hreach.plain, Nat.add_comm]
        rfl
      · rw [List.cons_append, List.cons_append, stringBody_escape, if_neg hc, hreach.crlf, Nat.add_comm]
        rfl
  | case3 c cs hlone hstop =>
      refine ⟨[], c :: cs, rfl, ?_⟩
      rcases hstop with rfl | rfl | rfl
      · refine .nil ?_ ?_
        · rw [stringBody_plain (by decide), if_pos (.inl rfl)]
        · rw [crlf_cons (by decide), stringBody_plain (by decide), if_pos (.inl rfl)]
          rfl
      · cases cs with
        | nil => exact .nil rfl rfl
        | cons d cs => exact absurd rfl (hlone d cs rfl)
      · have hzero (ds : List Char) : stringBody ('\n' :: ds) = 0 := by
          rw [stringBody_plain (by decide), if_pos (.inr rfl)]
        refine .nil (hzero cs) ?_
        rw [crlf_newline, stringBody_plain (by decide), if_neg (by decide), hzero]
        rfl
  | case4 c cs hlone hgo ih =>
      obtain ⟨l, r, rfl, hreach⟩ := ih h.tail
      have hc : c ≠ '\\' := by grind
      have hc' : ¬ (c = '"' ∨ c = '\n') := by grind
      refine ⟨c :: l, r, rfl, ?_, ?_, ?_⟩
      · exact List.not_mem_cons_of_ne_of_not_mem (fun heq => hgo (.inr (.inr heq.symm))) hreach.newline
      · rw [List.cons_append, stringBody_plain hc, if_neg hc', hreach.plain, Nat.add_comm]
        rfl
      · rw [List.cons_append, stringBody_plain hc, if_neg hc', hreach.crlf, Nat.add_comm]
        rfl
  | case5 => exact ⟨[], [], rfl, .nil rfl rfl⟩

theorem bne_head_crlf (cs : List Char) : ((crlf cs).head? != some '/') = (cs.head? != some '/') := by
  rw [Bool.eq_iff_iff, bne_iff_ne, bne_iff_ne]
  exact not_congr (head_crlf (by decide) (by decide) cs)

theorem opensDocLine_crlf (cs : List Char) : opensDocLine (crlf cs) = opensDocLine cs := by
  cases cs with
  | nil => rfl
  | cons c cs =>
      by_cases hslash : c = '/'
      · rw [hslash, crlf_cons (by decide), opensDocLine, opensDocLine, bne_head_crlf]
      · by_cases hc : c = '\n'
        · rw [hc]
          rfl
        · simp [crlf_cons hc, opensDocLine, hslash]

theorem opensDoc_star (cs : List Char) : opensDoc ('*' :: cs) = (cs.head? != some '/') := by
  cases cs with
  | nil => rfl
  | cons c cs =>
      rw [opensDoc_cons_cons, List.head?_cons]
      simp [bne]

theorem opensDoc_crlf (cs : List Char) : opensDoc (crlf cs) = opensDoc cs := by
  cases cs with
  | nil => rfl
  | cons c cs =>
      by_cases hstar : c = '*'
      · rw [hstar, crlf_cons (by decide), opensDoc_star, opensDoc_star, bne_head_crlf]
      · by_cases hc : c = '\n'
        · rw [hc]
          rfl
        · simp [crlf_cons hc, opensDoc, hstar]

/-- A block comment is closed at the same place. -/
theorem beforeClose_crlf (cs : List Char) :
    beforeClose? (crlf cs) = (beforeClose? cs).map fun n => (crlf (cs.take n)).length := by
  fun_induction beforeClose? cs with
  | case1 cs =>
      rw [crlf_cons (by decide), crlf_cons (by decide), beforeClose?]
      rfl
  | case2 c cs hopen ih =>
      rw [Option.map_map]
      by_cases hc : c = '\n'
      · subst hc
        have hskip {d : Char} (hd : d ≠ '*') (ds : List Char) :
            beforeClose? (d :: ds) = (beforeClose? ds).map (· + 1) :=
          beforeClose?.eq_2 _ _ fun _ h => absurd h hd
        rw [crlf_newline, hskip (by decide), hskip (by decide), ih, Option.map_map, Option.map_map]
        rfl
      · have hopen' : ∀ ds, c = '*' → crlf cs = '/' :: ds → False := by
          intro ds hstar hslash
          have hhead := (head_crlf (by decide) (by decide) cs).mp (List.head?_eq_some_iff.mpr ⟨ds, hslash⟩)
          obtain ⟨es, hes⟩ := List.head?_eq_some_iff.mp hhead
          exact hopen es hstar hes
        rw [crlf_cons hc, beforeClose?.eq_2 _ _ hopen', ih, Option.map_map]
        refine congrArg (Option.map · (beforeClose? cs)) (funext fun n => ?_)
        simp [crlf_cons hc]
  | case3 => rfl

end Lexeme

/-- What a document can show of the text of a token: the body of documentation, nothing of other comments and of
text of no lexical class, and else the text itself. -/
def TokenKind.gist (kind : TokenKind) (text : String) : String :=
  match kind with
  | comment kind => if kind.isDoc then kind.body text else ""
  | other => ""
  | _ => text

namespace TokenKind

theorem gist_docLine (l : List Char) :
    (comment .docLine).gist (String.ofList l) = String.ofList (Comment.lineBody l) := by
  rw [gist, CommentKind.isDoc, if_pos rfl, CommentKind.body, String.toList_ofList]

theorem gist_docBlock (l : List Char) :
    (comment .docBlock).gist (String.ofList l) = String.ofList (Comment.blockBody l) := by
  rw [gist, CommentKind.isDoc, if_pos rfl, CommentKind.body, String.toList_ofList]

theorem gist_ordinary {kind : CommentKind} (h : kind.isDoc = false) (text : String) :
    (comment kind).gist text = "" := by
  rw [gist, h, if_neg Bool.false_ne_true]

theorem gist_of_hasText {kind : TokenKind} (h : kind.hasText = true) (text : String) : kind.gist text = text := by
  cases kind with
  | comment => cases h
  | other => cases h
  | _ => rfl

end TokenKind

namespace Lexeme

/-- The text `a` is the first token of `a ++ b`, and with carriage returns put in the first token is the same
one, up to carriage returns `w` behind it. -/
structure Kept (kind : TokenKind) (a b w : List Char) : Prop where
  first_eq : first (a ++ b) = (kind, a.length)
  returns : ∀ c ∈ w, c = '\r'
  begins : w <+: crlf b
  first_crlf : first (crlf a ++ crlf b) = (kind, (crlf a ++ w).length)
  gist_eq : kind.gist (String.ofList (crlf a ++ w)) = kind.gist (String.ofList a)

/-- A token with no newline in it and no carriage return behind it. -/
theorem Kept.of_not_mem {kind : TokenKind} {a b : List Char} (ha : '\n' ∉ a)
    (hfirst : first (a ++ b) = (kind, a.length)) (hcrlf : first (a ++ crlf b) = (kind, a.length)) :
    Kept kind a b [] where
  first_eq := hfirst
  returns := by simp
  begins := List.nil_prefix
  first_crlf := by rw [crlf_of_not_mem ha, hcrlf, List.append_nil]
  gist_eq := by rw [crlf_of_not_mem ha, List.append_nil]

/-- A token with no newline in it that takes in a carriage return behind it. -/
theorem Kept.of_returns {kind : TokenKind} {a b : List Char} (ha : '\n' ∉ a)
    (hfirst : first (a ++ b) = (kind, a.length))
    (hcrlf : first (a ++ crlf b) = (kind, (a ++ Text.returns b).length))
    (hgist : ∀ l, '\n' ∉ l → kind.gist (String.ofList (l ++ ['\r'])) = kind.gist (String.ofList l)) :
    Kept kind a b (Text.returns b) where
  first_eq := hfirst
  returns := fun _ => eq_return_of_mem
  begins := returns_begins b
  first_crlf := by rw [crlf_of_not_mem ha, hcrlf]
  gist_eq := by
    rw [crlf_of_not_mem ha, Text.returns]
    split
    · exact hgist a ha
    · rw [List.append_nil]

theorem exists_kept_slashes {cs : List Char} (h : Unescaped cs) :
    ∃ kind a b w, '/' :: '/' :: cs = a ++ b ∧ Kept kind a b w := by
  obtain ⟨l, r, rfl, hreach⟩ := exists_lineTail_crlf h
  have hopens : opensDocLine (l ++ crlf r) = opensDocLine (l ++ r) := by
    rw [← opensDocLine_crlf (l ++ r), crlf_append, crlf_of_not_mem hreach.newline]
  have hfirst := first_slashes (l ++ r)
  have hcrlf := first_slashes (l ++ crlf r)
  rw [hreach.plain, Nat.add_comm] at hfirst
  rw [hopens, hreach.crlf, Nat.add_comm] at hcrlf
  have hnewline : '\n' ∉ '/' :: '/' :: l := by simpa using hreach.newline
  refine ⟨_, '/' :: '/' :: l, r, _, rfl, .of_returns hnewline hfirst hcrlf fun line hline => ?_⟩
  cases opensDocLine (l ++ r) with
  | true => rw [if_pos rfl, TokenKind.gist_docLine, TokenKind.gist_docLine, Comment.lineBody_concat hline]
  | false => rw [if_neg Bool.false_ne_true, TokenKind.gist_ordinary rfl, TokenKind.gist_ordinary rfl]

theorem kept_block {body z : List Char} (hclose : beforeClose? (body ++ '*' :: '/' :: z) = some body.length) :
    Kept (.comment (if opensDoc (body ++ '*' :: '/' :: z) then .docBlock else .block))
      ('/' :: '*' :: body ++ ['*', '/']) z [] := by
  have hcrlf := beforeClose_crlf (body ++ '*' :: '/' :: z)
  rw [hclose, Option.map_some, List.take_left] at hcrlf
  have hfirst := first_opening_closed hcrlf
  have htext : crlf ('/' :: '*' :: body ++ ['*', '/']) = crlf ('/' :: '*' :: body) ++ ['*', '/'] :=
    crlf_append _ _
  refine ⟨?_, by simp, List.nil_prefix, ?_, ?_⟩
  · have hlength : ('/' :: '*' :: body ++ ['*', '/']).length = body.length + 4 := by simp
    rw [hlength, ← first_opening_closed hclose]
    simp
  · have hlength : (crlf ('/' :: '*' :: body) ++ ['*', '/'] ++ []).length = (crlf body).length + 4 := by
      rw [crlf_cons (by decide), crlf_cons (by decide)]
      simp
    rw [opensDoc_crlf] at hfirst
    rw [htext, hlength, ← hfirst, ← htext, ← crlf_append, ← crlf_cons (by decide), ← crlf_cons (by decide)]
    simp
  · rw [htext, List.append_nil]
    cases opensDoc (body ++ '*' :: '/' :: z) with
    | true => rw [if_pos rfl, TokenKind.gist_docBlock, TokenKind.gist_docBlock, Comment.blockBody_crlf]
    | false => rw [if_neg Bool.false_ne_true, TokenKind.gist_ordinary rfl, TokenKind.gist_ordinary rfl]

theorem exists_kept_opening (cs : List Char) : ∃ kind a b w, '/' :: '*' :: cs = a ++ b ∧ Kept kind a b w := by
  cases hclose : beforeClose? cs with
  | none =>
      have hcrlf := beforeClose_crlf cs
      rw [hclose] at hcrlf
      exact ⟨_, ['/', '*'], cs, [], rfl, .of_not_mem (by decide) (first_opening_unclosed hclose)
        (first_opening_unclosed hcrlf)⟩
  | some n =>
      obtain ⟨body, z, rfl, rfl, -⟩ := exists_body_of_beforeClose hclose
      exact ⟨_, _, z, [], by simp, kept_block hclose⟩

theorem exists_kept_quote {cs : List Char} (h : Unescaped cs) :
    ∃ kind a b w, '"' :: cs = a ++ b ∧ Kept kind a b w := by
  obtain ⟨l, r, rfl, hreach⟩ := exists_stringBody_crlf h
  have hfirst := first_quote (l ++ r)
  have hcrlf := first_quote (l ++ crlf r)
  rw [hreach.plain, List.drop_left] at hfirst
  -- A closed string ends before any newline; one that is not closed takes in the carriage return.
  by_cases hquote : r.head? = some '"'
  · obtain ⟨z, rfl⟩ := List.head?_eq_some_iff.mp hquote
    rw [hreach.crlf, returns_of_ne (by simp), List.append_nil, crlf_cons (by decide), List.drop_left,
      if_pos List.head?_cons] at hcrlf
    rw [if_pos hquote] at hfirst
    refine ⟨.string, '"' :: (l ++ ['"']), z, [], by simp, .of_not_mem ?_ ?_ ?_⟩
    · simpa using hreach.newline
    · simpa using hfirst
    · simpa using hcrlf
  · have hopen : ((l ++ crlf r).drop (stringBody (l ++ crlf r))).head? ≠ some '"' := by
      rw [hreach.crlf]
      by_cases hnewline : r.head? = some '\n'
      · obtain ⟨z, rfl⟩ := List.head?_eq_some_iff.mp hnewline
        have htext : l ++ crlf ('\n' :: z) = l ++ ['\r'] ++ '\n' :: crlf z := List.append_cons l '\r' _
        rw [htext, returns_newline, List.drop_left, List.head?_cons]
        decide
      · rw [returns_of_ne hnewline, List.append_nil, List.drop_left]
        exact fun hhead => hquote ((head_crlf (by decide) (by decide) r).mp hhead)
    rw [if_neg hquote, Nat.add_comm] at hfirst
    rw [if_neg hopen, hreach.crlf, Nat.add_comm] at hcrlf
    exact ⟨.other, '"' :: l, r, _, rfl, .of_returns (by simpa using hreach.newline) hfirst hcrlf fun _ _ => rfl⟩

theorem exists_kept_of_first {l r : List Char} (hl : '\n' ∉ l) (hne : l ≠ []) (hfirst : first (l ++ r) = first l)
    (hcrlf : first (l ++ crlf r) = first l) : ∃ kind a b w, l ++ r = a ++ b ∧ Kept kind a b w := by
  have hle : (first l).2 ≤ l.length := by
    obtain ⟨c, l, rfl⟩ := List.exists_cons_of_ne_nil hne
    exact first_cons_le_length c l
  have hsplit (z : List Char) : l.take (first l).2 ++ (l.drop (first l).2 ++ z) = l ++ z := by
    rw [← List.append_assoc, List.take_append_drop]
  have hlength : (first l).2 = (l.take (first l).2).length := (List.length_take_of_le hle).symm
  have hdrop : '\n' ∉ l.drop (first l).2 := fun hmem => hl (List.mem_of_mem_drop hmem)
  refine ⟨(first l).1, _, _, [], (hsplit r).symm, .of_not_mem (fun hmem => hl (List.mem_of_mem_take hmem)) ?_ ?_⟩
  · rw [hsplit, hfirst, ← hlength]
  · rw [crlf_append, crlf_of_not_mem hdrop, hsplit, hcrlf, ← hlength]

theorem exists_kept_plain {cs : List Char} (hhead : cs.head? ≠ some '\n') (hne : cs ≠ [])
    (hplain : startsPlain cs = true) : ∃ kind a b w, cs = a ++ b ∧ Kept kind a b w := by
  -- Newline and carriage return are both layout, so the token ends at the same place before either.
  by_cases hmem : '\n' ∈ cs
  · obtain ⟨l, r, rfl, hl⟩ := List.eq_append_cons_of_mem hmem
    have hlne : l ≠ [] := by
      rintro rfl
      exact hhead rfl
    rw [startsPlain_append hlne (by decide)] at hplain
    refine exists_kept_of_first hl hlne (first_plain hlne hplain (by decide)) ?_
    exact first_plain hlne hplain (by decide)
  · have hkept := @exists_kept_of_first cs [] hmem hne (by rw [List.append_nil])
      (by rw [crlf_nil, List.append_nil])
    rwa [List.append_nil] at hkept

/-- The first token of a text is kept when carriage returns are put in. -/
theorem exists_kept {c : Char} {cs : List Char} (hc : isLayout c = false) (h : Unescaped (c :: cs)) :
    ∃ kind a b w, c :: cs = a ++ b ∧ Kept kind a b w := by
  have hhead : (c :: cs).head? ≠ some '\n' := by
    rw [List.head?_cons, Ne, Option.some.injEq]
    exact (ne_of_isLayout (by decide) hc).symm
  rcases start_cases (c :: cs) with ⟨ds, hds⟩ | ⟨ds, hds⟩ | ⟨ds, hds⟩ | hplain
  · rw [hds] at h ⊢
    exact exists_kept_slashes h.tail.tail
  · rw [hds]
    exact exists_kept_opening ds
  · rw [hds] at h ⊢
    exact exists_kept_quote h.tail
  · exact exists_kept_plain hhead (List.cons_ne_nil c cs) hplain

end Lexeme

namespace Token

/-- What a document can show of a token, with lines for byte offsets. -/
def gist (table : LineTable) (t : Token) : Token := ⟨t.kind, t.kind.gist t.text, t.span.mapOffsets table.lineOf⟩

theorem recasts_gist (table : LineTable) : Recasts (gist table) table.lineOf where
  alike t := ⟨rfl, fun htext => (TokenKind.gist_of_hasText htext t.text).symm⟩
  span_eq _ := rfl

theorem pass_eq_of_gist {table table' : LineTable} {t t' : Token} (h : t.gist table = t'.gist table')
    (pending : PendingDoc) : pending.pass t = pending.pass t' := by
  obtain ⟨kind, text, span⟩ := t
  obtain ⟨kind', text', span'⟩ := t'
  obtain ⟨rfl, hgist, -⟩ := Token.mk.inj h
  cases kind with
  | comment kind =>
      simp only [PendingDoc.pass, commentKind?, PendingDoc.observe]
      cases hdoc : kind.isDoc with
      | true =>
          simp only [TokenKind.gist, hdoc, if_true] at hgist
          rw [hgist]
      | false => rw [if_neg Bool.false_ne_true, if_neg Bool.false_ne_true]
  | _ => rfl

/-- The line at the end of a front part of a text, with carriage returns or without. -/
theorem lineOf_crlf {source other : String} (hother : other.toList = crlf source.toList)
    {front rest w : List Char} (hsource : source.toList = front ++ rest) (hbegins : w <+: crlf rest)
    (hw : ∀ c ∈ w, c = '\r') :
    (LineTable.ofSource other).lineOf (byteSize (crlf front ++ w)) =
      (LineTable.ofSource source).lineOf (byteSize front) := by
  obtain ⟨z, hz⟩ := hbegins
  have hnewlines : w.count '\n' = 0 := List.count_eq_zero.mpr fun hmem => absurd (hw _ hmem) (by decide)
  rw [hsource, crlf_append, ← hz, ← List.append_assoc] at hother
  rw [LineTable.lineOf_byteSize hother, LineTable.lineOf_byteSize hsource, List.count_append, count_crlf,
    hnewlines, Nat.add_zero]

theorem Leading.exists_kept {c : Char} {x rest : List Char} {kind : TokenKind} (h : Leading c x rest kind)
    (hescape : Unescaped (c :: x ++ rest)) : ∃ w, Lexeme.Kept kind (c :: x) rest w := by
  have hfirst := h.first_eq _ _ (List.append_nil rest).symm
  obtain ⟨kind', a, b, w, hsplit, hkept⟩ := Lexeme.exists_kept h.not_layout (List.cons_append ▸ hescape)
  rw [hsplit, hkept.first_eq] at hfirst
  obtain ⟨rfl, hlength⟩ := Prod.mk.inj hfirst
  rw [← List.cons_append] at hsplit
  obtain ⟨rfl, rfl⟩ := List.append_inj hsplit hlength.symm
  exact ⟨w, hkept⟩

/-- The token that is kept may end behind carriage returns that are skipped otherwise. -/
theorem lexFrom_kept {c : Char} {x rest w : List Char} {kind : TokenKind} (hc : isLayout c = false)
    (h : Lexeme.Kept kind (c :: x) rest w) (pos : Nat) :
    lexFrom pos (crlf (c :: x ++ rest)) =
      ⟨kind, String.ofList (crlf (c :: x) ++ w), ⟨pos, pos + byteSize (crlf (c :: x) ++ w)⟩⟩ ::
        lexFrom (pos + byteSize (crlf (c :: x))) (crlf rest) := by
  have hnewline : c ≠ '\n' := (ne_of_isLayout (by decide) hc).symm
  have hlayout : ∀ d ∈ w, isLayout d := fun d hd => by rw [h.returns d hd]; decide
  have hfirst := h.first_crlf
  obtain ⟨z, hz⟩ := h.begins
  rw [← hz, crlf_cons hnewline, ← List.append_assoc] at hfirst
  rw [crlf_append, ← hz, lexFrom_layouts hlayout, crlf_cons hnewline, ← List.append_assoc, Nat.add_assoc,
    ← byteSize_append]
  exact lexFrom_token hc hfirst pos

/-- With carriage returns put in, a text has the same tokens on the same lines. -/
theorem lexFrom_crlf {source other : String} (hother : other.toList = crlf source.toList)
    (hescape : Unescaped source.toList) {front cs : List Char} (hsource : source.toList = front ++ cs) :
    (lexFrom (byteSize (crlf front)) (crlf cs)).map (gist (.ofSource other)) =
      (lexFrom (byteSize front) cs).map (gist (.ofSource source)) := by
  -- The two texts are read in step; `front` is what has been read, and gives the lines on both sides.
  generalize hpos : byteSize front = pos
  induction pos, cs using lexFrom_induction generalizing front with
  | nil pos =>
      rw [crlf_nil, lexFrom, lexFrom]
      rfl
  | layout pos c cs hc ih =>
      have hreturn : ∀ d ∈ crlf [c], isLayout d := by
        by_cases hnewline : c = '\n'
        · rw [hnewline]
          exact List.all_eq_true.mp (by decide)
        · rw [crlf_cons hnewline, crlf_nil]
          simpa using hc
      have htail := @ih (front ++ [c]) (by rw [hsource, List.append_assoc]; rfl)
        (by rw [byteSize_append, hpos]; rfl)
      rw [← List.singleton_append, crlf_append, lexFrom_layouts hreturn, List.singleton_append, lexFrom_layout hc,
        ← htail, crlf_append, byteSize_append]
  | token pos c x rest kind hlead ih =>
      rw [← List.cons_append] at hsource ⊢
      have hsource' : source.toList = front ++ c :: x ++ rest := by rw [hsource, List.append_assoc]
      obtain ⟨w, hkept⟩ := hlead.exists_kept (hsource ▸ hescape).right
      have htail := ih hsource' (by rw [byteSize_append, hpos])
      have hstart := @lineOf_crlf source other hother front _ [] hsource List.nil_prefix (by simp)
      have hstop := lineOf_crlf hother hsource' hkept.begins hkept.returns
      rw [crlf_append, List.append_assoc, byteSize_append, byteSize_append front, hpos] at hstop
      rw [List.append_nil, hpos] at hstart
      rw [crlf_append, byteSize_append] at htail
      rw [lexFrom_kept hlead.not_layout hkept, List.cons_append,
        hlead.lexFrom_eq pos (List.append_nil rest).symm, List.map_cons, List.map_cons, htail, gist, gist]
      simp only [Span.mapOffsets, hkept.gist_eq, hstart, hstop]

theorem lex_crlf {source other : String} (hother : other.toList = crlf source.toList)
    (hescape : Unescaped source.toList) :
    (lex other).map (gist (.ofSource other)) = (lex source).map (gist (.ofSource source)) := by
  have htokens := @lexFrom_crlf source other hother hescape [] source.toList rfl
  rwa [← hother] at htokens

end Token

/-- Contents with the line of each byte offset in place of the offset, and all else as it is. -/
def Contents.byLines (table : LineTable) (contents : Contents) : Contents :=
  contents.relocate table.lineOf fun _ => 0

theorem Contents.byLines_addDeclaration (table : LineTable) (d : Declaration) (contents : Contents) :
    (contents.addDeclaration d).byLines table =
      (contents.byLines table).addDeclaration (d.relocate table.lineOf fun _ => 0) := rfl

theorem Contents.byLines_addStatement (table : LineTable) (found : Statement) (contents : Contents) :
    (contents.addStatement found).byLines table =
      (contents.byLines table).addStatement (found.mapOffsets table.lineOf) := by
  cases found <;> rfl

/-- What is made of pieces depends only on what a document can show of their tokens. -/
theorem Document.digest_gist {table table' : LineTable} {ps ps' : List Piece}
    (h : ps.map (Piece.recast (Token.gist table) table.lineOf) =
      ps'.map (Piece.recast (Token.gist table') table'.lineOf))
    (hne : ∀ piece ∈ ps, piece.tokens ≠ []) (hne' : ∀ piece ∈ ps', piece.tokens ≠ []) (pending : PendingDoc) :
    (digest table pending ps).1.byLines table = (digest table' pending ps').1.byLines table' ∧
      (digest table pending ps).2 = (digest table' pending ps').2 := by
  induction ps generalizing ps' pending with
  | nil =>
      rw [List.map_eq_nil_iff.mp h.symm]
      exact ⟨rfl, rfl⟩
  | cons piece ps ih =>
      obtain ⟨piece', ps', rfl, hpiece, hps⟩ := List.map_eq_cons_iff.mp h.symm
      have ih := ih hps.symm (fun other hother => hne other (List.mem_cons_of_mem piece hother))
        (fun other hother => hne' other (List.mem_cons_of_mem piece' hother))
      cases piece with
      | skipped t =>
          cases piece' with
          | skipped t' =>
              rw [digest, digest, Token.pass_eq_of_gist (Piece.skipped.inj hpiece)]
              exact ih _
          | declaration construct' q' => cases hpiece
          | statement found' q' => cases hpiece
      | declaration construct q =>
          cases piece' with
          | skipped t' => cases hpiece
          | declaration construct' q' =>
              have hspan := congrArg Piece.span hpiece
              rw [Piece.span_recast (Token.recasts_gist table') (hne' _ List.mem_cons_self),
                Piece.span_recast (Token.recasts_gist table) (hne _ List.mem_cons_self)] at hspan
              obtain ⟨hcontents, hleft⟩ := ih pending.clear
              refine ⟨?_, hleft⟩
              rw [digest, digest, Contents.byLines_addDeclaration, Contents.byLines_addDeclaration, hcontents,
                Declaration.relocate_ofConstruct, Declaration.relocate_ofConstruct,
                ← (Piece.declaration.inj hpiece).1, ← hspan, (Span.mk.inj hspan).1]
          | statement found' q' => cases hpiece
      | statement found q =>
          cases piece' with
          | skipped t' => cases hpiece
          | declaration construct' q' => cases hpiece
          | statement found' q' =>
              obtain ⟨hcontents, hleft⟩ := ih pending
              refine ⟨?_, hleft⟩
              rw [digest, digest, Contents.byLines_addStatement, Contents.byLines_addStatement, hcontents,
                (Piece.statement.inj hpiece).1]

/-- Carriage returns in front of all newlines change nothing in a document but byte offsets. -/
theorem scan_crlf (before other : Extractor) (source path : String) (hescape : Unescaped source.toList) :
    let returned := String.ofList (crlf source.toList)
    let plain := before.scan source path
    let changed := other.scan returned path
    changed.1.toContents.byLines (.ofSource returned) = plain.1.toContents.byLines (.ofSource source) ∧
      changed.1.declarations.map (·.hasParameters) = plain.1.declarations.map (·.hasParameters) ∧
      changed.1.package = plain.1.package ∧ changed.1.path = plain.1.path ∧ changed.2 = plain.2 := by
  intro returned
  have htokens := @Token.lex_crlf source returned String.toList_ofList hescape
  have hpieces := congrArg Piece.leftmost htokens
  rw [Piece.leftmost_map (Token.recasts_gist _), Piece.leftmost_map (Token.recasts_gist _)] at hpieces
  obtain ⟨hcontents, hpending⟩ := Document.digest_gist hpieces (fun _ => Piece.tokens_ne_nil_of_mem_leftmost)
    (fun _ => Piece.tokens_ne_nil_of_mem_leftmost) .empty
  rw [Extractor.scan_eq, Extractor.scan_eq]
  refine ⟨hcontents, ?_, ?_, rfl, congrArg Extractor.mk hpending⟩
  · have hparameters := congrArg (fun contents => contents.declarations.map (·.hasParameters)) hcontents
    rwa [Contents.byLines, Contents.byLines, Contents.hasParameters_relocate,
      Contents.hasParameters_relocate] at hparameters
  · have hpackage := congrArg Contents.package? hcontents
    rwa [Contents.byLines, Contents.byLines, Contents.package_relocate, Contents.package_relocate] at hpackage

/-- Documentation in both styles, a carriage return that is there already, a string that is not closed, and a
function inside a function. -/
theorem scan_crlf_nested :
    Unescaped "/// a\n/** b\r\n*/function f; \"\nfunction g; endfunction endfunction".toList ∧
      (({} : Extractor).scan "/// a\r\n/** b\r\r\n*/function f; \"\r\nfunction g; endfunction endfunction"
        "").1.declarations.map (fun d => (d.span, d.line, d.doc)) = [(⟨17, 67⟩, 3, some "\na\nb")] ∧
      (({} : Extractor).scan "/// a\r\n/** b\r\r\n*/function f; \"\r\nfunction g; endfunction endfunction"
        "").1.toContents.byLines
          (.ofSource "/// a\r\n/** b\r\r\n*/function f; \"\r\nfunction g; endfunction endfunction") =
        (({} : Extractor).scan "/// a\n/** b\r\n*/function f; \"\nfunction g; endfunction endfunction"
          "").1.toContents.byLines
            (.ofSource "/// a\n/** b\r\n*/function f; \"\nfunction g; endfunction endfunction") := by
  have hescape : Unescaped "/// a\n/** b\r\n*/function f; \"\nfunction g; endfunction endfunction".toList := by
    decide +kernel
  have hreturned :
      String.ofList (crlf "/// a\n/** b\r\n*/function f; \"\nfunction g; endfunction endfunction".toList) =
        "/// a\r\n/** b\r\r\n*/function f; \"\r\nfunction g; endfunction endfunction" := by decide +kernel
  have hcontents := (scan_crlf {} {} _ "" hescape).1
  rw [hreturned] at hcontents
  exact ⟨hescape, by decide +kernel, hcontents⟩

end BluespecDocs
