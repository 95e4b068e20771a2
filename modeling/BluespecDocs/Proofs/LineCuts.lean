import BluespecDocs.Proofs.CommentBodies
import Mathlib.Data.List.DropRight

/-!
Lines that are cut out of other lines. The body of a comment is made line by line: something is cut off at the start
of each line, something at its end, and lines of which nothing is left may go altogether. What is cut off is marks and
white space.
-/

namespace BluespecDocs

namespace Text

/-- What is cut off at the end of a text passes the test. -/
theorem exists_dropEndWhile (test : Char → Bool) (cs : List Char) :
    ∃ q, cs = dropEndWhile test cs ++ q ∧ ∀ c ∈ q, test c = true :=
  ⟨cs.rtakeWhile test, List.rdropWhile_append_rtakeWhile.symm, fun _ hc => List.mem_rtakeWhile_imp hc⟩

end Text

open Text

namespace Comment

variable {marks : List Char}

/-- Text of white space and of some marks. -/
def IsFringe (marks cs : List Char) : Prop := ∀ c ∈ cs, isWhitespace c = true ∨ c ∈ marks

/-- A line that is left of a row when something is cut off at its end. -/
def CutShort (marks line row : List Char) : Prop := ∃ q, row = line ++ q ∧ IsFringe marks q

/-- A line that is left of a row when something is cut off at both ends. -/
def CutOut (marks line row : List Char) : Prop :=
  ∃ p q, row = p ++ (line ++ q) ∧ IsFringe marks p ∧ IsFringe marks q

/-- The lines of a body are cut out of neighbouring lines of a text, one of each. Nothing is left of the lines before
and behind. -/
def CutLines (marks body text : List Char) : Prop :=
  ∃ front kept rear, segments '\n' text = front ++ (kept ++ rear) ∧
    List.Forall₂ (CutOut marks) (segments '\n' body) kept ∧ ∀ row ∈ front ++ rear, IsFringe marks row

theorem isFringe_nil : IsFringe marks [] := fun _ hc => nomatch hc

theorem IsFringe.append {a b : List Char} (ha : IsFringe marks a) (hb : IsFringe marks b) : IsFringe marks (a ++ b) :=
  fun c hc => (List.mem_append.mp hc).elim (ha c) (hb c)

theorem isWhitespace_of_isBlank {c : Char} (h : isBlank c = true) : isWhitespace c = true := by
  rw [isBlank, Bool.or_eq_true, beq_iff_eq, beq_iff_eq] at h
  rcases h with rfl | rfl <;> decide

namespace CutOut

variable {line row : List Char}

theorem refl (line : List Char) : CutOut marks line line :=
  ⟨[], [], (List.append_nil line).symm, isFringe_nil, isFringe_nil⟩

theorem trans {top : List Char} (h : CutOut marks line row) (h' : CutOut marks row top) : CutOut marks line top := by
  obtain ⟨p, q, rfl, hp, hq⟩ := h
  obtain ⟨p', q', rfl, hp', hq'⟩ := h'
  exact ⟨p' ++ p, q ++ q', by simp, hp'.append hp, hq.append hq'⟩

theorem of_append {p : List Char} (hp : IsFringe marks p) (line : List Char) : CutOut marks line (p ++ line) :=
  ⟨p, [], by rw [List.append_nil], hp, isFringe_nil⟩

theorem isFringe (h : CutOut marks [] row) : IsFringe marks row := by
  obtain ⟨p, q, rfl, hp, hq⟩ := h
  exact hp.append hq

theorem mem (h : CutOut marks line row) {c : Char} (hc : c ∈ line) : c ∈ row := by
  obtain ⟨p, q, rfl, -, -⟩ := h
  exact List.mem_append_right p (List.mem_append_left q hc)

end CutOut

theorem CutShort.cons {line row : List Char} (c : Char) (h : CutShort marks line row) :
    CutShort marks (c :: line) (c :: row) :=
  h.imp fun _ hq => ⟨congrArg (c :: ·) hq.1, hq.2⟩

theorem CutShort.cutOut {line row : List Char} (h : CutShort marks line row) : CutOut marks line row := by
  obtain ⟨q, rfl, hq⟩ := h
  exact ⟨[], q, rfl, isFringe_nil, hq⟩

theorem cutOut_of_sameLine {line row : List Char} (h : SameLine line row) : CutOut marks line row := by
  rcases h with rfl | rfl
  · exact .refl _
  · exact CutShort.cutOut ⟨['\r'], rfl, fun c hc => .inl (by rw [List.mem_singleton.mp hc]; decide)⟩

theorem cutOut_trimEnd (line : List Char) : CutOut marks (trimEnd line) line := by
  obtain ⟨q, hline, hq⟩ := exists_dropEndWhile isWhitespace line
  exact CutShort.cutOut ⟨q, hline, fun c hc => .inl (hq c hc)⟩

theorem cutOut_dropBlank (line : List Char) : CutOut marks (dropBlank line) line := by
  cases line with
  | nil => exact .refl []
  | cons c line =>
      rw [dropBlank]
      split
      · next hc =>
          have hblank : IsFringe marks [c] := fun d hd => .inl (isWhitespace_of_isBlank (List.mem_singleton.mp hd ▸ hc))
          exact .of_append hblank line
      · exact .refl _

theorem cutOut_withoutMark {skip : Char → Bool} {mark : List Char} (hskip : ∀ c, skip c = true → isWhitespace c = true)
    (hmark : ∀ c ∈ mark, c ∈ marks) (line : List Char) : CutOut marks (withoutMark skip mark line) line := by
  rw [withoutMark]
  split
  · next hbegins =>
      obtain ⟨body, hbody⟩ := hbegins
      rw [← hbody, List.drop_left]
      have hfront : CutOut marks (line.dropWhile skip) (line.takeWhile skip ++ line.dropWhile skip) :=
        .of_append (fun c hc => .inl (hskip c (List.all_eq_true.mp List.all_takeWhile c hc))) _
      rw [List.takeWhile_append_dropWhile, ← hbody] at hfront
      exact ((cutOut_dropBlank body).trans (.of_append (fun c hc => .inr (hmark c hc)) body)).trans hfront
  · exact .refl line

theorem forall₂_cutOut_trans {ls rows tops : List (List Char)} (h : List.Forall₂ (CutOut marks) ls rows)
    (h' : List.Forall₂ (CutOut marks) rows tops) : List.Forall₂ (CutOut marks) ls tops := by
  induction h generalizing tops with
  | nil => exact h'
  | cons hline _ ih =>
      cases h' with
      | cons hrow hrest => exact .cons (hline.trans hrow) (ih hrest)

theorem exists_append_of_forall₂ {R : List Char → List Char → Prop} {a b rows : List (List Char)}
    (h : List.Forall₂ R (a ++ b) rows) : ∃ a' b', rows = a' ++ b' ∧ List.Forall₂ R a a' ∧ List.Forall₂ R b b' := by
  have hflip : List.Forall₂ (flip R) rows (a ++ b) := h.flip
  exact ⟨rows.take a.length, rows.drop a.length, (List.take_append_drop _ _).symm,
    (List.forall₂_take_append _ _ _ hflip).flip, (List.forall₂_drop_append _ _ _ hflip).flip⟩

/-- Lines without the empty ones at both ends. -/
theorem exists_trimEmpty (ls : List (List Char)) :
    ∃ front rear, ls = front ++ (trimEmpty ls ++ rear) ∧ ∀ l ∈ front ++ rear, l = [] := by
  refine ⟨ls.takeWhile List.isEmpty, (ls.dropWhile List.isEmpty).rtakeWhile List.isEmpty, ?_, fun l hl => ?_⟩
  · have htrim : trimEmpty ls = (ls.dropWhile List.isEmpty).rdropWhile List.isEmpty := rfl
    rw [htrim, List.rdropWhile_append_rtakeWhile, List.takeWhile_append_dropWhile]
  · rcases List.mem_append.mp hl with hl | hl
    · exact List.isEmpty_iff.mp (List.all_eq_true.mp List.all_takeWhile l hl)
    · exact List.isEmpty_iff.mp (List.mem_rtakeWhile_imp hl)

theorem isFringe_of_forall₂ {ls rows : List (List Char)} (h : List.Forall₂ (CutOut marks) ls rows)
    (hempty : ∀ l ∈ ls, l = []) : ∀ row ∈ rows, IsFringe marks row := by
  induction h with
  | nil => exact fun _ hrow => nomatch hrow
  | cons hline _ ih =>
      rw [List.forall_mem_cons] at hempty ⊢
      exact ⟨(hempty.1 ▸ hline).isFringe, ih hempty.2⟩

theorem exists_row_of_mem {ls rows : List (List Char)} (h : List.Forall₂ (CutOut marks) ls rows) {l : List Char}
    (hl : l ∈ ls) : ∃ row ∈ rows, CutOut marks l row := by
  induction h with
  | nil => cases hl
  | cons hline _ ih =>
      rcases List.mem_cons.mp hl with rfl | hl
      · exact ⟨_, List.mem_cons_self, hline⟩
      · obtain ⟨row, hrow, hcut⟩ := ih hl
        exact ⟨row, List.mem_cons_of_mem _ hrow, hcut⟩

theorem newline_not_mem_of_forall₂ {ls : List (List Char)} {text : List Char}
    (h : List.Forall₂ (CutOut marks) ls (segments '\n' text)) : ∀ l ∈ ls, '\n' ∉ l := by
  intro l hl hmem
  obtain ⟨row, hrow, hcut⟩ := exists_row_of_mem h hl
  exact not_mem_of_mem_segments hrow (hcut.mem hmem)

theorem cutLines_nil {text : List Char} (h : ∀ row ∈ segments '\n' text, IsFringe marks row) :
    CutLines marks [] text := by
  obtain ⟨row, others, hrows⟩ := List.exists_cons_of_ne_nil (segments_ne_nil '\n' text)
  rw [hrows, List.forall_mem_cons] at h
  have hrow : CutOut marks [] row := List.append_nil row ▸ .of_append h.1 []
  exact ⟨[], [row], others, hrows, .cons hrow .nil, h.2⟩

theorem mem_of_mem_trimEmpty {ls : List (List Char)} {l : List Char} (h : l ∈ trimEmpty ls) : l ∈ ls := by
  obtain ⟨front, rear, hls, -⟩ := exists_trimEmpty ls
  rw [hls]
  exact List.mem_append_right front (List.mem_append_left rear h)

/-- Lines that are left of all lines of a text make a body, without the empty ones at both ends. -/
theorem cutLines_trimEmpty {ls : List (List Char)} {text : List Char}
    (h : List.Forall₂ (CutOut marks) ls (segments '\n' text)) : CutLines marks (joinLines (trimEmpty ls)) text := by
  have hnewline : ∀ l ∈ trimEmpty ls, '\n' ∉ l := fun l hl =>
    newline_not_mem_of_forall₂ h l (mem_of_mem_trimEmpty hl)
  obtain ⟨front, rear, hls, hempty⟩ := exists_trimEmpty ls
  by_cases hnil : trimEmpty ls = []
  · rw [hnil, List.nil_append] at hls
    rw [hnil]
    exact cutLines_nil (isFringe_of_forall₂ h (hls ▸ hempty))
  · rw [hls] at h
    obtain ⟨front', rest', hrows, hfront, hrest⟩ := exists_append_of_forall₂ h
    obtain ⟨kept, rear', rfl, hkept, hrear⟩ := exists_append_of_forall₂ hrest
    rw [List.forall_mem_append] at hempty
    refine ⟨front', kept, rear', hrows, ?_, List.forall_mem_append.mpr
      ⟨isFringe_of_forall₂ hfront hempty.1, isFringe_of_forall₂ hrear hempty.2⟩⟩
    rwa [segments_joinLines hnewline hnil]

theorem trimEmpty_append_nil (ls : List (List Char)) : trimEmpty (ls ++ [[]]) = trimEmpty ls := by
  rw [trimEmpty, trimEmpty, List.dropWhile_append]
  split
  · next hnone => rw [List.isEmpty_iff.mp hnone]; rfl
  · rw [List.reverse_append]; rfl

/-- The first of some lines and the others, each without its own marks. -/
def stripped (opening gutter : List Char → List Char) : List (List Char) → List (List Char)
  | first :: others => opening first :: others.map gutter
  | [] => []

theorem blockLines_eq (cs : List Char) :
    blockLines cs = stripped withoutOpen withoutGutter (lines (withoutClose cs)) := by
  rw [blockLines]
  cases lines (withoutClose cs) <;> rfl

/-- A text whose end is cut off, within its last line. -/
theorem forall₂_cutShort {q : List Char} (hnewline : '\n' ∉ q) (hq : IsFringe marks q) (x : List Char) :
    List.Forall₂ (CutShort marks) (segments '\n' x) (segments '\n' (x ++ q)) := by
  induction x with
  | nil =>
      rw [List.nil_append, segments_of_not_mem hnewline]
      exact .cons ⟨q, rfl, hq⟩ .nil
  | cons c x ih =>
      rw [List.cons_append, segments, segments]
      split
      · exact .cons ⟨[], rfl, isFringe_nil⟩ ih
      · exact forall₂_consFirst c ⟨[], rfl, isFringe_nil⟩ (fun _ _ => CutShort.cons c) ih

section Stripped

variable {opening gutter : List Char → List Char} {x text : List Char}

/-- What is left of the lines of a text that is cut short to `x`, if each is stripped of its own marks. -/
theorem exists_forall₂_stripped (hopening : ∀ l, CutOut marks (opening l) l) (hgutter : ∀ l, CutOut marks (gutter l) l)
    (hshort : List.Forall₂ (CutShort marks) (segments '\n' x) (segments '\n' text)) :
    ∃ pad, (pad = [] ∨ pad = [[]]) ∧ List.Forall₂ (CutOut marks)
      ((stripped opening gutter (lines x)).map trimEnd ++ pad) (segments '\n' text) := by
  obtain ⟨rows, pad, hsegments, hrows, hpad⟩ := exists_rows_of_lines x
  have hcut {f : List Char → List Char} (hf : ∀ l, CutOut marks (f l) l) {l row : List Char} (h : SameLine l row) :
      CutOut marks (trimEnd (f l)) row :=
    ((cutOut_trimEnd _).trans (hf l)).trans (cutOut_of_sameLine h)
  have hstripped : List.Forall₂ (CutOut marks) ((stripped opening gutter (lines x)).map trimEnd) rows := by
    generalize lines x = ls at hrows
    cases hrows with
    | nil => exact .nil
    | cons hline hrest =>
        refine .cons (hcut hopening hline) ?_
        rw [List.forall₂_map_left_iff, List.forall₂_map_left_iff]
        exact hrest.imp fun _ _ => hcut hgutter
  refine ⟨pad, hpad, forall₂_cutOut_trans ?_ (hshort.imp fun _ _ => CutShort.cutOut)⟩
  rw [hsegments]
  exact List.rel_append hstripped (List.forall₂_same.mpr fun l _ => .refl l)

theorem cutLines_stripped (hopening : ∀ l, CutOut marks (opening l) l) (hgutter : ∀ l, CutOut marks (gutter l) l)
    (hshort : List.Forall₂ (CutShort marks) (segments '\n' x) (segments '\n' text)) :
    CutLines marks (joinLines (trimEmpty ((stripped opening gutter (lines x)).map trimEnd))) text := by
  obtain ⟨pad, hpad, hall⟩ := exists_forall₂_stripped hopening hgutter hshort
  have htrim := cutLines_trimEmpty hall
  rcases hpad with rfl | rfl
  · rwa [List.append_nil] at htrim
  · rwa [trimEmpty_append_nil] at htrim

end Stripped

/-! Block comments -/

/-- The stars in front of a closing mark and the blanks in front of those. -/
theorem exists_closing (b : List Char) :
    ∃ q, b = dropEndWhile isBlank (dropEndWhile (· == '*') b) ++ q ∧ ∀ c ∈ q, isBlank c = true ∨ c = '*' := by
  obtain ⟨stars, hstars, hstar⟩ := exists_dropEndWhile (· == '*') b
  obtain ⟨blanks, hblanks, hblank⟩ := exists_dropEndWhile isBlank (dropEndWhile (· == '*') b)
  refine ⟨blanks ++ stars, ?_, fun c hc => ?_⟩
  · rw [← List.append_assoc, ← hblanks, ← hstars]
  · exact (List.mem_append.mp hc).imp (hblank c) fun hc => beq_iff_eq.mp (hstar c hc)

theorem exists_withoutClose (cs : List Char) :
    ∃ q, cs = withoutClose cs ++ q ∧ ∀ c ∈ q, isBlank c = true ∨ c ∈ ['/', '*'] := by
  by_cases hclose : ∃ b, cs = b ++ ['*', '/']
  · obtain ⟨b, rfl⟩ := hclose
    obtain ⟨q, hb, hq⟩ := exists_closing b
    refine ⟨q ++ ['*', '/'], ?_, fun c hc => ?_⟩
    · rw [withoutClose_append_close, ← List.append_assoc, ← hb]
    · rcases List.mem_append.mp hc with hc | hc
      · exact (hq c hc).imp id fun hstar => by simp [hstar]
      · exact .inr (by simpa [or_comm] using hc)
  · have hsame : withoutClose cs = cs := by
      rw [withoutClose]
      split
      · next before hbefore =>
          exact absurd ⟨before.reverse, by rw [← List.reverse_reverse cs, hbefore]; simp⟩ hclose
      · rfl
    exact ⟨[], by rw [hsame, List.append_nil], by simp⟩

theorem cutOut_withoutOpen (line : List Char) : CutOut ['/', '*'] (withoutOpen line) line := by
  rw [withoutOpen_eq]
  exact cutOut_withoutMark (fun _ h => h) (by simp) line

theorem cutOut_withoutGutter (hmarks : '*' ∈ marks) (line : List Char) : CutOut marks (withoutGutter line) line := by
  rw [withoutGutter_eq]
  exact cutOut_withoutMark (fun _ => isWhitespace_of_isBlank) (by simpa using hmarks) line

theorem cutOut_withoutSlashes (line : List Char) : CutOut ['/'] (withoutSlashes line) line := by
  rw [withoutSlashes_eq]
  exact cutOut_withoutMark (fun _ => isWhitespace_of_isBlank) (by simp) line

end Comment

end BluespecDocs
