import BluespecDocs.Proofs.TokenStarts

/-!
The class and the end of a comment. Two slashes start a line comment, which goes on behind a newline only if a
backslash stands right in front of the newline; a slash and a star start a block comment if a closing mark stands
anywhere behind them. One more character, or two, tell documentation from ordinary comments.
-/

namespace BluespecDocs

open Text Lexeme

namespace Token

/-- A text is cut in front of the first newline that does not stand right behind a backslash, or at its end. -/
structure CutAtLineEnd (line rest : List Char) : Prop where
  joined : ∀ a b, line = a ++ '\n' :: b → a.getLast? = some '\\'
  ends : rest = [] ∨ rest.head? = some '\n' ∧ line.getLast? ≠ some '\\'

/-- What stands behind the opening mark of a block comment is cut around the first closing mark. -/
structure CutAtClose (cs body rest : List Char) : Prop where
  eq : cs = body ++ ("*/".toList ++ rest)
  first : ¬ "*/".toList <:+: body ++ ['*']

/-- What the first token of a text is where the text starts like a comment. No other token is a comment. -/
structure ClassifiesComments (s : String) : Prop where
  slashes : "//".toList <+: s.toList → ∃ line rest, s.toList = line ++ rest ∧ CutAtLineEnd line rest ∧
    (lex s).head? = some ⟨.comment
      (if "///".toList <+: s.toList ∧ ¬ "////".toList <+: s.toList then .docLine else .line),
      String.ofList line, ⟨0, byteSize line⟩⟩
  closed : ∀ cs, s.toList = "/*".toList ++ cs → "*/".toList <:+: cs → ∃ body rest, CutAtClose cs body rest ∧
    (lex s).head? = some ⟨.comment
      (if "/**".toList <+: s.toList ∧ ¬ "/**/".toList <+: s.toList then .docBlock else .block),
      String.ofList ("/*".toList ++ (body ++ "*/".toList)), ⟨0, 2 + byteSize body + 2⟩⟩
  unclosed : ∀ cs, s.toList = "/*".toList ++ cs → ¬ "*/".toList <:+: cs →
    (lex s).head? = some ⟨.other, "/*", ⟨0, 2⟩⟩ ∧ ∀ t ∈ lex s, t.span.start < 2 → t.commentKind? = none
  starts : ∀ t ∈ lex s, t.commentKind?.isSome → "//".toList <+: t.text.toList ∨ "/*".toList <+: t.text.toList

namespace CutAtLineEnd

variable {line rest : List Char} {c : Char}

theorem cons (h : CutAtLineEnd line rest) (hc : c ≠ '\n')
    (hlast : line = [] → rest.head? = some '\n' → c ≠ '\\') : CutAtLineEnd (c :: line) rest where
  joined a b heq := by
    cases a with
    | nil => exact absurd (List.cons.inj heq).1 hc
    | cons d a =>
        have hjoined := h.joined a b (List.cons.inj heq).2
        rw [List.getLast?_cons, hjoined]
        rfl
  ends := by
    refine h.ends.imp id fun ⟨hnewline, hback⟩ => ⟨hnewline, ?_⟩
    cases line with
    | nil => simpa using hlast rfl hnewline
    | cons d line => rwa [List.getLast?_cons_cons]

/-- A backslash and the newline behind it are no end. -/
theorem escape (h : CutAtLineEnd line rest) : CutAtLineEnd ('\\' :: '\n' :: line) rest where
  joined a b heq := by
    match a with
    | [] => cases heq
    | [d] =>
        cases heq
        rfl
    | d :: e :: a =>
        have hjoined := h.joined a b (List.cons.inj (List.cons.inj heq).2).2
        rw [List.getLast?_cons, List.getLast?_cons, hjoined]
        rfl
  ends := by
    refine h.ends.imp id fun ⟨hnewline, hback⟩ => ⟨hnewline, ?_⟩
    cases line with
    | nil => decide
    | cons d line => rwa [List.getLast?_cons_cons, List.getLast?_cons_cons]

end CutAtLineEnd

theorem cutAtLineEnd_lineTail (cs : List Char) :
    CutAtLineEnd (cs.take (lineTail cs)) (cs.drop (lineTail cs)) := by
  fun_induction lineTail cs with
  | case1 cs ih =>
      rw [Nat.add_comm]
      exact ih.escape
  | case2 cs hescape => exact ⟨by simp, .inr ⟨rfl, by simp⟩⟩
  | case3 c cs hescape hc ih =>
      rw [Nat.add_comm]
      refine ih.cons hc fun htake hnewline => ?_
      rintro rfl
      have hhead : cs.head? = some '\n' := by
        rw [← List.take_append_drop (lineTail cs) cs, htake]
        exact hnewline
      obtain ⟨ds, rfl⟩ := List.head?_eq_some_iff.mp hhead
      exact hescape ds rfl rfl
  | case4 => exact ⟨by simp, .inl rfl⟩

/-- A token at the start of a text is its first token. -/
theorem head_lex {s : String} {c : Char} {x rest : List Char} {kind : TokenKind} (hc : isLayout c = false)
    (hs : s.toList = c :: (x ++ rest)) (hfirst : first (c :: (x ++ rest)) = (kind, x.length + 1)) :
    (lex s).head? = some ⟨kind, String.ofList (c :: x), ⟨0, byteSize (c :: x)⟩⟩ := by
  rw [lex, hs, lexFrom_token hc hfirst, List.head?_cons, Nat.zero_add]

theorem opensDocLine_iff (cs : List Char) : opensDocLine cs = true ↔
    "///".toList <+: '/' :: '/' :: cs ∧ ¬ "////".toList <+: '/' :: '/' :: cs := by
  fun_cases opensDocLine cs with
  | case1 cs => simp [List.singleton_prefix_iff_head?_eq_some]
  | case2 _ hslash =>
      have hhead : cs.head? ≠ some '/' := fun h => (List.head?_eq_some_iff.mp h).elim hslash
      simp [List.singleton_prefix_iff_head?_eq_some, hhead]

theorem opensDoc_iff (cs : List Char) : opensDoc cs = true ↔
    "/**".toList <+: '/' :: '*' :: cs ∧ ¬ "/**/".toList <+: '/' :: '*' :: cs := by
  fun_cases opensDoc cs with
  | case1 cs => simp
  | case2 cs hslash =>
      have hhead : cs.head? ≠ some '/' := fun h => (List.head?_eq_some_iff.mp h).elim hslash
      simp [List.singleton_prefix_iff_head?_eq_some, hhead]
  | case3 _ hclose hstar =>
      have hhead : cs.head? ≠ some '*' := fun h => (List.head?_eq_some_iff.mp h).elim hstar
      simp [List.singleton_prefix_iff_head?_eq_some, hhead]

variable {s : String} {cs : List Char}

theorem head_lex_slashes (hs : s.toList = '/' :: '/' :: cs) :
    (lex s).head? = some ⟨.comment (if opensDocLine cs then .docLine else .line),
      String.ofList ('/' :: '/' :: cs.take (lineTail cs)), ⟨0, byteSize ('/' :: '/' :: cs.take (lineTail cs))⟩⟩ := by
  have hsplit : '/' :: cs = '/' :: cs.take (lineTail cs) ++ cs.drop (lineTail cs) := by
    rw [List.cons_append, List.take_append_drop]
  have hlength : ('/' :: cs.take (lineTail cs)).length + 1 = 2 + lineTail cs := by
    rw [List.length_cons, List.length_take_of_le (lineTail_le_length cs), Nat.add_comm 2]
  have hfirst := first_slashes cs
  rw [hsplit, ← hlength] at hfirst
  exact head_lex (by decide) (hs.trans (congrArg ('/' :: ·) hsplit)) hfirst

theorem head_lex_closed {body rest : List Char} (hs : s.toList = '/' :: '*' :: cs) (hcut : CutAtClose cs body rest) :
    (lex s).head? = some ⟨.comment (if opensDoc cs then .docBlock else .block),
      String.ofList ("/*".toList ++ (body ++ "*/".toList)), ⟨0, 2 + byteSize body + 2⟩⟩ := by
  have hsplit : '*' :: cs = '*' :: (body ++ "*/".toList) ++ rest := by
    rw [hcut.eq, List.cons_append, List.append_assoc]
  have hclose : beforeClose? cs = some body.length := hcut.eq ▸ beforeClose_append_close hcut.first rest
  have hlength : ('*' :: (body ++ "*/".toList)).length + 1 = body.length + 4 := by
    rw [List.length_cons, List.length_append]
    rfl
  have hsize : byteSize ('/' :: '*' :: (body ++ "*/".toList)) = 2 + byteSize body + 2 := by
    change 1 + (1 + byteSize (body ++ "*/".toList)) = _
    rw [byteSize_append, ← Nat.add_assoc, ← Nat.add_assoc]
    rfl
  have hfirst := first_opening_closed hclose
  rw [hsplit, ← hlength] at hfirst
  have hhead := head_lex (by decide) (hs.trans (congrArg ('/' :: ·) hsplit)) hfirst
  rwa [hsize] at hhead

theorem head_lex_unclosed (hs : s.toList = '/' :: '*' :: cs) (hclose : beforeClose? cs = none) :
    (lex s).head? = some ⟨.other, "/*", ⟨0, 2⟩⟩ :=
  head_lex (x := ['*']) (by decide) hs (first_opening_unclosed hclose)

/-- The first token reaches over two bytes, and all others start behind it. -/
theorem commentKind_of_start_lt {t : Token} (hhead : (lex s).head? = some ⟨.other, "/*", ⟨0, 2⟩⟩) (ht : t ∈ lex s)
    (hstart : t.span.start < 2) : t.commentKind? = none := by
  obtain ⟨rest, hlex⟩ := List.head?_eq_some_iff.mp hhead
  have hapart := (lex_inOrder s).apart
  rw [hlex] at ht hapart
  rcases List.mem_cons.mp ht with rfl | ht
  · rfl
  · exact absurd hstart (Nat.not_lt.mpr (List.rel_of_pairwise_cons hapart ht))

theorem starts_of_isComment {t : Token} (ht : t ∈ lex s) (hcomment : t.commentKind?.isSome) :
    "//".toList <+: t.text.toList ∨ "/*".toList <+: t.text.toList := by
  have hmem := mem_language_of_mem ht
  rw [commentKind?] at hcomment
  split at hcomment
  · next kind hkind =>
      rw [hkind] at hmem
      have hmem := hmem nofun
      cases kind with
      | docLine =>
          obtain ⟨v, -, hv⟩ := Grammar.mem_text_mul.mp hmem
          exact .inl ⟨'/' :: v, hv.symm⟩
      | line =>
          obtain ⟨v, -, hv⟩ := Grammar.mem_text_mul.mp hmem
          exact .inl ⟨v, hv.symm⟩
      | docBlock | block =>
          obtain ⟨body, hbody, -⟩ := hmem
          exact .inr ⟨_, hbody.symm⟩
  · cases hcomment

/-- Comments are classified by their start alone, and end where their class says. -/
theorem lex_classifiesComments (s : String) : ClassifiesComments s where
  slashes h := by
    obtain ⟨cs, hcs⟩ := h
    have hs : s.toList = '/' :: '/' :: cs := hcs.symm
    have hcut := ((cutAtLineEnd_lineTail cs).cons (c := '/') (by decide) fun _ _ => by decide).cons (c := '/')
      (by decide) fun _ _ => by decide
    refine ⟨_, _, ?_, hcut, ?_⟩
    · rw [hs, List.cons_append, List.cons_append, List.take_append_drop]
    · rw [head_lex_slashes hs, hs]
      simp only [opensDocLine_iff]
  closed cs hs hclose := by
    cases hbefore : beforeClose? cs with
    | none => exact absurd hclose (not_infix_of_beforeClose hbefore)
    | some n =>
        obtain ⟨body, rest, hcs, -, hfirst⟩ := exists_body_of_beforeClose hbefore
        have hcut : CutAtClose cs body rest := ⟨hcs, hfirst⟩
        refine ⟨body, rest, hcut, ?_⟩
        rw [head_lex_closed hs hcut, hs]
        simp only [opensDoc_iff]
        rfl
  unclosed cs hs hclose := by
    cases hbefore : beforeClose? cs with
    | none =>
        have hhead := head_lex_unclosed hs hbefore
        exact ⟨hhead, fun t => commentKind_of_start_lt hhead⟩
    | some n =>
        obtain ⟨body, rest, rfl, -, -⟩ := exists_body_of_beforeClose hbefore
        exact absurd ⟨body, rest, by simp⟩ hclose
  starts _ := starts_of_isComment

end Token

end BluespecDocs
