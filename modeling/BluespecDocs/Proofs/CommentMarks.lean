import BluespecDocs.Proofs.LineCuts
import BluespecDocs.Proofs.LongestMatch

/-!
The marks of documentation blocks. The closing mark is cut off first and takes all stars in front of it along, and then
the opening mark is cut off. If anything but stars stands between the two marks, what is left is cut out of that. In a
comment of stars alone the closing mark takes the stars of the opening mark, which is then no longer found, and its
slash is left over.
-/

namespace BluespecDocs

open Text

namespace Text

theorem dropEndWhile_append (test : Char → Bool) (a b : List Char) : dropEndWhile test (a ++ b) =
    if dropEndWhile test b = [] then dropEndWhile test a else a ++ dropEndWhile test b := by
  simp only [dropEndWhile, List.reverse_append, List.dropWhile_append, List.isEmpty_iff, List.reverse_eq_nil_iff]
  split <;> simp

theorem dropEndWhile_eq_nil {test : Char → Bool} {l : List Char} : dropEndWhile test l = [] ↔ ∀ c ∈ l, test c = true :=
  List.rdropWhile_eq_nil_iff

theorem lines_cons {c : Char} (hreturn : c ≠ '\r') (hnewline : c ≠ '\n') (cs : List Char) :
    lines (c :: cs) = consFirst c (lines cs) := by
  rw [lines, if_neg hnewline]
  exact fun ds h => absurd h hreturn

end Text

namespace Comment

variable {b : List Char}

theorem withoutClose_doc (h : ∃ c ∈ b, c ≠ '*') : withoutClose ("/**".toList ++ (b ++ "*/".toList)) =
    "/**".toList ++ dropEndWhile isBlank (dropEndWhile (· == '*') b) := by
  have hstars : dropEndWhile (· == '*') b ≠ [] := by
    rw [Ne, dropEndWhile_eq_nil]
    obtain ⟨c, hc, hne⟩ := h
    exact fun hall => hne (beq_iff_eq.mp (hall c hc))
  rw [← List.append_assoc]
  change withoutClose (_ ++ ['*', '/']) = _
  rw [withoutClose_append_close, dropEndWhile_append, if_neg hstars, dropEndWhile_append]
  split
  · next hblank =>
      rw [hblank]
      rfl
  · rfl

theorem withoutOpen_doc (line : List Char) : withoutOpen ('/' :: '*' :: '*' :: line) = dropBlank line := by
  rw [withoutOpen_eq]
  exact withoutMark_of_append (List.dropWhile_cons_of_neg (by decide))

/-- The body of a documentation block is made of what stands between its marks. -/
theorem blockBody_doc (h : ∃ c ∈ b, c ≠ '*') : blockBody ("/**".toList ++ (b ++ "*/".toList)) =
    joinLines (trimEmpty ((stripped dropBlank withoutGutter
      (lines (dropEndWhile isBlank (dropEndWhile (· == '*') b)))).map trimEnd)) := by
  rw [blockBody, blockLines_eq, withoutClose_doc h]
  generalize dropEndWhile isBlank (dropEndWhile (· == '*') b) = x
  have hlines : lines ("/**".toList ++ x) = consFirst '/' (consFirst '*' (consFirst '*' (lines x))) := by
    change lines ('/' :: '*' :: '*' :: x) = _
    rw [lines_cons (by decide) (by decide), lines_cons (by decide) (by decide), lines_cons (by decide) (by decide)]
  rw [hlines]
  cases lines x with
  | nil => rfl
  | cons first others => rw [consFirst, consFirst, consFirst, stripped, stripped, withoutOpen_doc]

theorem cutLines_doc (h : ∃ c ∈ b, c ≠ '*') :
    CutLines ['*'] (blockBody ("/**".toList ++ (b ++ "*/".toList))) b := by
  obtain ⟨q, hb, hq⟩ := exists_closing b
  have hnewline : '\n' ∉ q := fun hmem => absurd (hq _ hmem) (by decide)
  rw [blockBody_doc h]
  refine cutLines_stripped cutOut_dropBlank (cutOut_withoutGutter (by simp)) ?_
  have hshort := @forall₂_cutShort ['*'] q hnewline
    (fun c hc => (hq c hc).imp isWhitespace_of_isBlank fun hstar => by simp [hstar])
    (dropEndWhile isBlank (dropEndWhile (· == '*') b))
  rwa [← hb] at hshort

theorem blockBody_stars (h : ∀ c ∈ b, c = '*') : blockBody ("/**".toList ++ (b ++ "*/".toList)) = ['/'] := by
  have hstars : dropEndWhile (· == '*') ('*' :: '*' :: b) = [] :=
    dropEndWhile_eq_nil.mpr (by simpa using h)
  have hclose : withoutClose ("/**".toList ++ (b ++ "*/".toList)) = ['/'] := by
    rw [← List.append_assoc]
    change withoutClose (['/'] ++ '*' :: '*' :: b ++ ['*', '/']) = _
    rw [withoutClose_append_close, dropEndWhile_append, if_pos hstars]
    rfl
  rw [blockBody, blockLines, hclose]
  rfl

end Comment

/-- A documentation block as it is written. -/
theorem Token.exists_docBlock {source : String} {t : Token} (ht : t ∈ lex source)
    (hkind : t.kind = .comment .docBlock) : ∃ b, t.text.toList = "/**".toList ++ (b ++ "*/".toList) := by
  have hmem := mem_language_of_mem ht (by rw [hkind]; nofun)
  rw [hkind] at hmem
  obtain ⟨body, hbody, -, hdoc⟩ := hmem
  obtain ⟨b, rfl⟩ := List.head?_eq_some_iff.mp (of_decide_eq_true hdoc)
  exact ⟨b, hbody⟩

/-- The body of a documentation block has lines that are cut out of the lines between its marks, exactly if anything but
stars stands there. If not, it is a slash of the opening mark. -/
theorem Comment.docBlock_body (source : String) (t : Token) (ht : t ∈ Token.lex source)
    (hkind : t.kind = .comment .docBlock) : ∃ b, t.text.toList = "/**".toList ++ (b ++ "*/".toList) ∧
      ((∃ c ∈ b, c ≠ '*') → CutLines ['*'] (CommentKind.docBlock.body t.text).toList b) ∧
      ((∀ c ∈ b, c = '*') → CommentKind.docBlock.body t.text = "/") := by
  obtain ⟨b, htext⟩ := Token.exists_docBlock ht hkind
  refine ⟨b, htext, fun h => ?_, fun h => ?_⟩
  · rw [CommentKind.body, String.toList_ofList, htext]
    exact cutLines_doc h
  · rw [CommentKind.body, htext, blockBody_stars h]

theorem Comment.docBlock_body_starred :
    ⟨.comment .docBlock, "/**** a **\n ** b ***/", ⟨0, 21⟩⟩ ∈ Token.lex "/**** a **\n ** b ***/ module" ∧
    CutLines ['*'] "** a **\n* b".toList "** a **\n ** b **".toList := by
  have hmem : ⟨.comment .docBlock, "/**** a **\n ** b ***/", ⟨0, 21⟩⟩ ∈ Token.lex "/**** a **\n ** b ***/ module" := by
    decide +kernel
  obtain ⟨b, htext, hcut, -⟩ := docBlock_body _ _ hmem rfl
  have htext : "/**".toList ++ ("** a **\n ** b **".toList ++ "*/".toList) = "/**".toList ++ (b ++ "*/".toList) := htext
  obtain rfl := List.append_cancel_right (List.append_cancel_left htext)
  have hbody : CommentKind.docBlock.body "/**** a **\n ** b ***/" = "** a **\n* b" := by decide +kernel
  rw [hbody] at hcut
  exact ⟨hmem, hcut ⟨'a', by decide +kernel, by decide⟩⟩

/-- Nothing stands between the marks here, and yet a slash is left. -/
theorem Comment.slash_left_of_stars :
    Token.lex "/***/" = [⟨.comment .docBlock, "/***/", ⟨0, 5⟩⟩] ∧ "/***/".toList = "/**".toList ++ ([] ++ "*/".toList) ∧
    CommentKind.docBlock.body "/***/" = "/" ∧
    ¬ ∀ line ∈ segments '\n' (CommentKind.docBlock.body "/***/").toList, ∃ row ∈ segments '\n' [], line <:+: row := by
  have hbody : CommentKind.docBlock.body "/***/" = "/" := by decide +kernel
  refine ⟨by decide +kernel, rfl, hbody, ?_⟩
  rw [hbody]
  simp [segments, consFirst]

end BluespecDocs
