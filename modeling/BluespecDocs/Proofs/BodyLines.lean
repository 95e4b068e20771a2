import BluespecDocs.Proofs.LineCuts
import BluespecDocs.Proofs.Pieces

/-!
The lines in the bodies of comments. Each is cut out of a line of the comment, one of each and in their order. A block
comment loses lines only at its two ends, and a line comment at most the last one. No line of a body ends in white
space, so documentation of white space alone is made of newlines.
-/

namespace BluespecDocs

namespace Text

/-- No line of a text ends in white space. -/
def TrimmedLines (cs : List Char) : Prop := ∀ line ∈ segments '\n' cs, ∀ c ∈ line.getLast?, isWhitespace c = false

theorem getLast_trimEnd (l : List Char) : ∀ c ∈ (trimEnd l).getLast?, isWhitespace c = false := by
  intro c hc
  rw [trimEnd, dropEndWhile, List.getLast?_reverse] at hc
  have hnot := List.head?_dropWhile_not isWhitespace l.reverse
  rw [Option.mem_def.mp hc] at hnot
  simpa using hnot

theorem trimmedLines_nil : TrimmedLines [] := by simp [TrimmedLines, segments]

theorem trimmedLines_joinLines {ls : List (List Char)} (hnewline : ∀ l ∈ ls, '\n' ∉ l)
    (htrimmed : ∀ l ∈ ls, ∀ c ∈ l.getLast?, isWhitespace c = false) : TrimmedLines (joinLines ls) := by
  cases hls : ls with
  | nil => exact trimmedLines_nil
  | cons l ls' =>
      rw [← hls, TrimmedLines, segments_joinLines hnewline (by simp [hls])]
      exact htrimmed

theorem TrimmedLines.append {a b : List Char} (ha : TrimmedLines a) (hb : TrimmedLines b) :
    TrimmedLines (a ++ '\n' :: b) := by
  intro line hline
  rw [segments_append_cons, List.mem_append] at hline
  exact hline.elim (ha line) (hb line)

/-- A line that does not end in white space is white space only if it is empty. -/
theorem TrimmedLines.eq_newline {cs : List Char} (h : TrimmedLines cs) (hblank : ∀ c ∈ cs, isWhitespace c = true) :
    ∀ c ∈ cs, c = '\n' := by
  have hempty : ∀ line ∈ segments '\n' cs, line = [] := by
    intro line hline
    cases hlast : line.getLast? with
    | none => exact List.getLast?_eq_none_iff.mp hlast
    | some c =>
        have hspace := hblank c (mem_of_mem_segments hline (List.mem_of_getLast? hlast))
        rw [h line hline c hlast] at hspace
        cases hspace
  clear h hblank
  induction cs using segments_induction '\n' with
  | last l hl =>
      obtain rfl := hempty l (by rw [segments_of_not_mem hl]; exact List.mem_singleton_self l)
      simp
  | piece l r hl ih =>
      rw [segments_append_cons, segments_of_not_mem hl, List.singleton_append, List.forall_mem_cons] at hempty
      obtain ⟨rfl, hempty⟩ := hempty
      exact List.forall_mem_cons.mpr ⟨rfl, ih hempty⟩

end Text

open Text

namespace Comment

theorem head_trimEmpty (ls : List (List Char)) : (trimEmpty ls).head? ≠ some [] := by
  intro hhead
  obtain ⟨rest, hrest⟩ : trimEmpty ls <+: ls.dropWhile List.isEmpty := List.rdropWhile_prefix List.isEmpty _
  have hnot := List.head?_dropWhile_not List.isEmpty ls
  rw [← hrest, List.head?_append, hhead, Option.some_or] at hnot
  exact absurd hnot (by decide)

theorem getLast_trimEmpty (ls : List (List Char)) : (trimEmpty ls).getLast? ≠ some [] := by
  intro hlast
  rw [trimEmpty, List.getLast?_reverse] at hlast
  have hnot := List.head?_dropWhile_not List.isEmpty (ls.dropWhile List.isEmpty).reverse
  rw [hlast] at hnot
  exact absurd hnot (by decide)

/-- The shape of the body of a block comment. -/
structure BlockShape (text body : List Char) : Prop where
  trimmed : TrimmedLines body
  ends : body = [] ∨ (segments '\n' body).head? ≠ some [] ∧ (segments '\n' body).getLast? ≠ some []
  cut : CutLines ['/', '*'] body text

theorem blockBody_shape (text : List Char) : BlockShape text (blockBody text) := by
  obtain ⟨q, htext, hq⟩ := exists_withoutClose text
  have hnewline : '\n' ∉ q := fun hmem => absurd (hq _ hmem) (by decide)
  have hshort : List.Forall₂ (CutShort ['/', '*']) (segments '\n' (withoutClose text)) (segments '\n' text) := by
    have hcut := forall₂_cutShort hnewline (fun c hc => (hq c hc).imp isWhitespace_of_isBlank id) (withoutClose text)
    rwa [← htext] at hcut
  have hgutter := @cutOut_withoutGutter ['/', '*'] (by simp)
  obtain ⟨pad, -, hall⟩ := exists_forall₂_stripped cutOut_withoutOpen hgutter hshort
  have hcut := cutLines_stripped cutOut_withoutOpen hgutter hshort
  rw [← blockLines_eq] at hall hcut
  have hlines : ∀ l ∈ trimEmpty ((blockLines text).map trimEnd), '\n' ∉ l := fun l hl =>
    newline_not_mem_of_forall₂ hall l (List.mem_append_left pad (mem_of_mem_trimEmpty hl))
  refine ⟨trimmedLines_joinLines hlines fun l hl => ?_, ?_, hcut⟩
  · obtain ⟨l', -, rfl⟩ := List.mem_map.mp (mem_of_mem_trimEmpty hl)
    exact getLast_trimEnd l'
  · by_cases hnil : trimEmpty ((blockLines text).map trimEnd) = []
    · left
      rw [blockBody, hnil]
      rfl
    · right
      rw [blockBody, segments_joinLines hlines hnil]
      exact ⟨head_trimEmpty _, getLast_trimEmpty _⟩

/-! Line comments -/

/-- A line with nothing on it but, possibly, the mark of a line comment: blanks, three slashes and at most one blank. -/
def IsBareMark (row : List Char) : Prop :=
  row = [] ∨ ∃ blanks tail, row = blanks ++ ("///".toList ++ tail) ∧ (∀ c ∈ blanks ++ tail, isBlank c = true) ∧
    tail.length ≤ 1

/-- The shape of the body of a line comment. -/
structure LineShape (text body : List Char) : Prop where
  trimmed : TrimmedLines body
  cut : ∃ kept rear, segments '\n' text = kept ++ rear ∧
    List.Forall₂ (CutOut ['/']) (segments '\n' body) kept ∧ (rear = [] ∨ ∃ row, rear = [row] ∧ IsBareMark row)

theorem isBlank_of_dropBlank {tail : List Char} (h : dropBlank tail = []) :
    (∀ c ∈ tail, isBlank c = true) ∧ tail.length ≤ 1 := by
  cases tail with
  | nil => simp
  | cons c cs =>
      rw [dropBlank] at h
      split at h
      · next hc => simpa [h] using hc
      · cases h

theorem isBareMark_of_withoutSlashes {row : List Char} (h : withoutSlashes row = []) : IsBareMark row := by
  rw [withoutSlashes_eq, withoutMark] at h
  split at h
  · next hbegins =>
      obtain ⟨tail, htail⟩ := hbegins
      rw [← htail, List.drop_left] at h
      obtain ⟨hblank, hlength⟩ := isBlank_of_dropBlank h
      have hrow : row = row.takeWhile isBlank ++ row.dropWhile isBlank := List.takeWhile_append_dropWhile.symm
      rw [← htail] at hrow
      exact .inr ⟨_, tail, hrow, List.forall_mem_append.mpr
        ⟨List.all_eq_true.mp List.all_takeWhile, hblank⟩, hlength⟩
  · exact .inl h

/-- The body of a line comment has all its lines, but for a last one of which nothing is left behind the mark. -/
theorem exists_lineBody (text : List Char) : ∃ kept rear, segments '\n' text = kept ++ rear ∧
    lineBody text = joinLines (kept.map fun l => trimEnd (withoutSlashes l)) ∧
    (rear = [] ∨ ∃ row, rear = [row] ∧ withoutSlashes row = []) := by
  have hnewline : ∀ l ∈ (segments '\n' text).map withoutSlashes, '\n' ∉ l := by
    intro l hl hmem
    obtain ⟨row, hrow, rfl⟩ := List.mem_map.mp hl
    exact not_mem_of_mem_segments hrow ((cutOut_withoutSlashes row).mem hmem)
  have hne : (segments '\n' text).map withoutSlashes ≠ [] := by simp [segments_ne_nil]
  obtain ⟨rows, pad, hsegments, hrows, hpad⟩ :=
    exists_rows_of_lines (joinLines ((segments '\n' text).map withoutSlashes))
  rw [segments_joinLines hnewline hne] at hsegments
  obtain ⟨kept, rear, htext, rfl, rfl⟩ := List.map_eq_append_iff.mp hsegments
  refine ⟨kept, rear, htext, ?_, ?_⟩
  · have htrim := @map_trimEnd_of_sameLine id _ _ (fun _ => rfl) hrows
    rw [List.map_id, List.map_id] at htrim
    rw [lineBody, ← htrim, List.map_map]
    rfl
  · rcases hpad with hpad | hpad
    · exact .inl (List.map_eq_nil_iff.mp hpad)
    · obtain ⟨row, rfl, hrow⟩ := List.map_eq_singleton_iff.mp hpad
      exact .inr ⟨row, rfl, hrow⟩

theorem lineBody_shape (text : List Char) : LineShape text (lineBody text) := by
  obtain ⟨kept, rear, htext, hbody, hrear⟩ := exists_lineBody text
  have hcut (l : List Char) : CutOut ['/'] (trimEnd (withoutSlashes l)) l :=
    (cutOut_trimEnd _).trans (cutOut_withoutSlashes l)
  have hlines : ∀ l ∈ kept.map fun l => trimEnd (withoutSlashes l), '\n' ∉ l := by
    intro l hl hmem
    obtain ⟨row, hrow, rfl⟩ := List.mem_map.mp hl
    exact not_mem_of_mem_segments (htext ▸ List.mem_append_left rear hrow) ((hcut row).mem hmem)
  rw [hbody]
  refine ⟨trimmedLines_joinLines hlines fun l hl => ?_, ?_⟩
  · obtain ⟨row, -, rfl⟩ := List.mem_map.mp hl
    exact getLast_trimEnd _
  by_cases hnil : kept = []
  · -- A comment of one line that is a bare mark: its body is one line, with nothing on it.
    subst hnil
    rcases hrear with rfl | ⟨row, rfl, hrow⟩
    · exact absurd htext (segments_ne_nil '\n' text)
    · exact ⟨[row], [], htext, .cons (hrow ▸ cutOut_withoutSlashes row) .nil, .inl rfl⟩
  · refine ⟨kept, rear, htext, ?_, hrear.imp id fun ⟨row, hrow, hbare⟩ =>
      ⟨row, hrow, isBareMark_of_withoutSlashes hbare⟩⟩
    rw [segments_joinLines hlines (by simpa using hnil), List.forall₂_map_left_iff]
    exact List.forall₂_same.mpr fun l _ => hcut l

end Comment

/-! Documentation -/

theorem CommentKind.trimmedLines_body (kind : CommentKind) (text : String) :
    TrimmedLines (kind.body text).toList := by
  cases kind with
  | docBlock | block =>
      rw [body, String.toList_ofList]
      exact (Comment.blockBody_shape _).trimmed
  | docLine | line =>
      rw [body, String.toList_ofList]
      exact (Comment.lineBody_shape _).trimmed

theorem PendingDoc.trimmedLines_behind {pending : PendingDoc} (h : TrimmedLines pending.text.toList) (piece : Piece) :
    TrimmedLines (pending.behind piece).text.toList := by
  cases piece with
  | declaration construct q => exact trimmedLines_nil
  | statement found q => exact h
  | skipped t =>
      rw [behind, pass]
      split
      · next kind _ =>
          rw [observe]
          split
          · rw [String.toList_append, String.toList_append, List.append_assoc]
            exact h.append (kind.trimmedLines_body t.text)
          · exact trimmedLines_nil
      · exact h

theorem PendingDoc.trimmedLines_foldl {pending : PendingDoc} (h : TrimmedLines pending.text.toList) (ps : List Piece) :
    TrimmedLines (ps.foldl behind pending).text.toList := by
  induction ps generalizing pending with
  | nil => exact h
  | cons piece ps ih => exact ih (trimmedLines_behind h piece)

theorem Extractor.trimmedLines_doc {before : Extractor} {source path : String} {d : Declaration}
    (hd : d ∈ (before.scan source path).1.declarations) {doc : String} (hdoc : d.doc = some doc) :
    TrimmedLines doc.toList := by
  rw [scan_eq] at hd
  obtain ⟨earlier, later, hsplit⟩ := List.append_of_mem hd
  obtain ⟨ps, q, later, -, -, -, htaken⟩ := Document.exists_piece_of_digest hsplit
  rw [hdoc, PendingDoc.taken?] at htaken
  split at htaken
  · cases htaken
  · rw [Option.some.inj htaken]
    exact @PendingDoc.trimmedLines_foldl .empty trimmedLines_nil ps

/-- The bodies of comments have their shapes whatever the text, and documentation that is all white space is all
newlines. -/
theorem comment_body_lines :
    (∀ text : String, Comment.BlockShape text.toList (Comment.blockBody text.toList)) ∧
    (∀ text : String, Comment.LineShape text.toList (Comment.lineBody text.toList)) ∧
    ∀ (before : Extractor) (source path : String), ∀ d ∈ (before.scan source path).1.declarations, ∀ doc ∈ d.doc,
      ((∀ c ∈ doc.toList, isWhitespace c = true) ↔ ∀ c ∈ doc.toList, c = '\n') := by
  refine ⟨fun text => Comment.blockBody_shape text.toList, fun text => Comment.lineBody_shape text.toList, ?_⟩
  intro before source path d hd doc hdoc
  refine ⟨(Extractor.trimmedLines_doc hd hdoc).eq_newline, fun h c hc => ?_⟩
  rw [h c hc]
  decide

end BluespecDocs
