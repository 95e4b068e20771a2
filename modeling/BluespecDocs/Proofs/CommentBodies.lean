import BluespecDocs.Comment
import Mathlib.Data.List.Forall2

/-!
The bodies of comments. White space at the end of a line never gets into a body, so lines may differ by a
carriage return at their end. A line comment that is one line long has the rest of that line for its body.
-/

namespace BluespecDocs

namespace Text

variable {test : Char → Bool} {l r : List Char} {c : Char}

theorem dropEndWhile_concat_of_pos (h : test c) (l : List Char) :
    dropEndWhile test (l ++ [c]) = dropEndWhile test l := by
  rw [dropEndWhile, List.reverse_concat, List.dropWhile_cons_of_pos h, dropEndWhile]

theorem dropEndWhile_concat_of_neg (h : test c = false) (l : List Char) :
    dropEndWhile test (l ++ [c]) = l ++ [c] := by
  rw [dropEndWhile, List.reverse_concat, List.dropWhile_cons_of_neg (by simp [h]), List.reverse_cons,
    List.reverse_reverse]

theorem trimEnd_eq_self (h : ∀ c ∈ l.getLast?, isWhitespace c = false) : trimEnd l = l := by
  cases hlast : l.getLast? with
  | none =>
      rw [List.getLast?_eq_none_iff.mp hlast]
      rfl
  | some c =>
      obtain ⟨front, rfl⟩ := List.getLast?_eq_some_iff.mp hlast
      exact dropEndWhile_concat_of_neg (h c hlast) front

theorem joinLines_singleton (l : List Char) : joinLines [l] = l := List.intercalate_singleton

theorem segments_eq_splitOn (c : Char) (cs : List Char) : segments c cs = cs.splitOn c := by
  induction cs with
  | nil => rfl
  | cons d cs ih =>
      obtain ⟨first, others, hsplit⟩ := List.exists_cons_of_ne_nil (List.splitOn_ne_nil c cs)
      rw [segments, List.splitOn_cons_eq_if_modifyHead, ih, hsplit]
      simp [consFirst]

theorem segments_ne_nil (c : Char) (cs : List Char) : segments c cs ≠ [] := by
  rw [segments_eq_splitOn]
  exact List.splitOn_ne_nil c cs

theorem segments_of_not_mem (h : c ∉ l) : segments c l = [l] := by
  rw [segments_eq_splitOn, List.splitOn_eq_singleton h]

theorem segments_append_cons (c : Char) (a b : List Char) :
    segments c (a ++ c :: b) = segments c a ++ segments c b := by
  simp only [segments_eq_splitOn, List.splitOn_append_cons_self]

theorem segments_joinLines {ls : List (List Char)} (h : ∀ l ∈ ls, '\n' ∉ l) (hne : ls ≠ []) :
    segments '\n' (joinLines ls) = ls := by
  rw [segments_eq_splitOn]
  exact List.splitOn_intercalate '\n' h hne

/-- Induction along the pieces of a text. -/
theorem segments_induction (c : Char) {motive : List Char → Prop} (last : ∀ l, c ∉ l → motive l)
    (piece : ∀ l r, c ∉ l → motive r → motive (l ++ c :: r)) (cs : List Char) : motive cs := by
  by_cases hc : c ∈ cs
  · obtain ⟨l, r, rfl, hl⟩ := List.eq_append_cons_of_mem hc
    exact piece l r hl (segments_induction c last piece r)
  · exact last cs hc
termination_by cs.length
decreasing_by simp +arith [*]

theorem mem_of_mem_segments {c x : Char} {line cs : List Char} (hline : line ∈ segments c cs)
    (hx : x ∈ line) : x ∈ cs := by
  induction cs using segments_induction c with
  | last l hl =>
      rw [segments_of_not_mem hl, List.mem_singleton] at hline
      rwa [← hline]
  | piece l r hl ih =>
      rw [segments_append_cons, segments_of_not_mem hl, List.singleton_append, List.mem_cons] at hline
      rcases hline with rfl | hline
      · exact List.mem_append_left _ hx
      · exact List.mem_append_right _ (List.mem_cons_of_mem c (ih hline))

theorem not_mem_of_mem_segments {c : Char} {line cs : List Char} (hline : line ∈ segments c cs) : c ∉ line := by
  induction cs using segments_induction c with
  | last l hl =>
      rw [segments_of_not_mem hl, List.mem_singleton] at hline
      rwa [hline]
  | piece l r hl ih =>
      rw [segments_append_cons, segments_of_not_mem hl, List.singleton_append, List.mem_cons] at hline
      rcases hline with rfl | hline
      · exact hl
      · exact ih hline

/-- The same line, or that line with a carriage return at its end. -/
def SameLine (l l' : List Char) : Prop := l' = l ∨ l' = l ++ ['\r']

theorem SameLine.cons {l l' : List Char} (c : Char) (h : SameLine l l') : SameLine (c :: l) (c :: l') :=
  h.imp (congrArg (c :: ·)) (congrArg (c :: ·))

section SameLine

variable {strip : List Char → List Char} {l l' : List Char} {ls ls' : List (List Char)}

theorem trimEnd_eq_of_sameLine (hstrip : ∀ line, strip (line ++ ['\r']) = strip line ++ ['\r'])
    (h : SameLine l l') : trimEnd (strip l') = trimEnd (strip l) := by
  rcases h with rfl | rfl
  · rfl
  · rw [hstrip]
    exact dropEndWhile_concat_of_pos (by decide) (strip l)

theorem map_trimEnd_of_sameLine (hstrip : ∀ line, strip (line ++ ['\r']) = strip line ++ ['\r'])
    (h : List.Forall₂ SameLine ls ls') : (ls'.map strip).map trimEnd = (ls.map strip).map trimEnd := by
  induction h with
  | nil => rfl
  | cons hline hrest ih => simp only [List.map_cons, trimEnd_eq_of_sameLine hstrip hline, ih]

end SameLine

theorem forall₂_consFirst {R : List Char → List Char → Prop} {ls ls' : List (List Char)} (c : Char) (hnil : R [] [])
    (hcons : ∀ l l', R l l' → R (c :: l) (c :: l')) (h : List.Forall₂ R ls ls') :
    List.Forall₂ R (consFirst c ls) (consFirst c ls') := by
  cases h with
  | nil => exact .cons (hcons [] [] hnil) .nil
  | cons hline hrest => exact .cons (hcons _ _ hline) hrest

theorem lines_cons_of_ne (hc : c ≠ '\n') (hr : r.head? ≠ some '\n') : lines (c :: r) = consFirst c (lines r) := by
  rw [lines, if_neg hc]
  rintro cs rfl rfl
  exact hr rfl

theorem lines_append_newline (hl : '\n' ∉ l) (hlast : l.getLast? ≠ some '\r') (r : List Char) :
    lines (l ++ '\n' :: r) = l :: lines r := by
  induction l with
  | nil =>
      rw [List.nil_append, lines, if_pos rfl]
      rintro cs ⟨⟩
  | cons c l ih =>
      obtain ⟨hc, hl⟩ := List.ne_and_not_mem_of_not_mem_cons hl
      cases l with
      | nil =>
          have hreturn : c ≠ '\r' := by simpa using hlast
          rw [List.singleton_append, lines, if_neg hc.symm]
          · exact congrArg (consFirst c) (ih hl (by simp))
          · exact fun cs h => absurd h hreturn
      | cons d l =>
          have hd : d ≠ '\n' := (List.ne_and_not_mem_of_not_mem_cons hl).1.symm
          rw [List.cons_append, lines_cons_of_ne hc.symm (by simpa using hd),
            ih hl (by rwa [List.getLast?_cons_cons] at hlast)]
          rfl

theorem lines_of_not_mem (hl : '\n' ∉ l) (hne : l ≠ []) : lines l = [l] := by
  induction l with
  | nil => exact absurd rfl hne
  | cons c l ih =>
      obtain ⟨hc, hl⟩ := List.ne_and_not_mem_of_not_mem_cons hl
      cases l with
      | nil =>
          rw [lines_cons_of_ne hc.symm (by simp)]
          rfl
      | cons d l =>
          have hd : d ≠ '\n' := (List.ne_and_not_mem_of_not_mem_cons hl).1.symm
          rw [lines_cons_of_ne hc.symm (by simpa using hd), ih hl (List.cons_ne_nil d l)]
          rfl

/-- The lines of a text are its pieces between newlines, but for carriage returns and for an empty piece at the end. -/
theorem exists_rows_of_lines (cs : List Char) : ∃ rows pad, segments '\n' cs = rows ++ pad ∧
    List.Forall₂ SameLine (lines cs) rows ∧ (pad = [] ∨ pad = [[]]) := by
  fun_induction lines cs with
  | case1 => exact ⟨[], [[]], rfl, .nil, .inr rfl⟩
  | case2 cs ih =>
      obtain ⟨rows, pad, hsegments, hrows, hpad⟩ := ih
      refine ⟨['\r'] :: rows, pad, ?_, .cons (.inr rfl) hrows, hpad⟩
      rw [segments, if_neg (by decide), segments, if_pos rfl, hsegments]
      rfl
  | case3 cs hreturn ih =>
      obtain ⟨rows, pad, hsegments, hrows, hpad⟩ := ih
      refine ⟨[] :: rows, pad, ?_, .cons (.inl rfl) hrows, hpad⟩
      rw [segments, if_pos rfl, hsegments]
      rfl
  | case4 c cs hreturn hc ih =>
      obtain ⟨rows, pad, hsegments, hrows, hpad⟩ := ih
      rw [segments, if_neg hc, hsegments]
      generalize lines cs = ls at hrows
      cases hrows with
      | nil =>
          -- No line at all: what follows is empty, and its one piece is.
          obtain rfl : pad = [[]] := hpad.resolve_left fun hnil => segments_ne_nil '\n' cs (by simp [hsegments, hnil])
          exact ⟨[[c]], [], rfl, .cons (.inl rfl) .nil, .inl rfl⟩
      | cons hline hrest => exact ⟨_, pad, rfl, .cons (hline.cons c) hrest, hpad⟩

end Text

open Text

namespace Comment

theorem dropBlank_suffix (cs : List Char) : dropBlank cs <:+ cs := by
  cases cs with
  | nil => exact List.suffix_rfl
  | cons c cs =>
      rw [dropBlank]
      split
      · exact List.suffix_cons c cs
      · exact List.suffix_rfl

/-- A line without a mark, what is skipped in front of the mark, and one blank after it. -/
def withoutMark (skip : Char → Bool) (mark line : List Char) : List Char :=
  if mark <+: line.dropWhile skip then dropBlank ((line.dropWhile skip).drop mark.length) else line

section Mark

variable {skip : Char → Bool} {mark line : List Char}

theorem withoutMark_of_append {body : List Char} (h : line.dropWhile skip = mark ++ body) :
    withoutMark skip mark line = dropBlank body := by
  rw [withoutMark, h, if_pos (List.prefix_append mark body), List.drop_left]

theorem withoutMark_of_ne (h : ∀ body, line.dropWhile skip ≠ mark ++ body) : withoutMark skip mark line = line :=
  if_neg fun ⟨body, hbody⟩ => h body hbody.symm

theorem withoutOpen_eq (line : List Char) :
    withoutOpen line = withoutMark isWhitespace ['/', '*', '*'] line := by
  rw [withoutOpen]
  split
  · next hmark => exact (withoutMark_of_append hmark).symm
  · next hmark => exact (withoutMark_of_ne hmark).symm

theorem withoutGutter_eq (line : List Char) : withoutGutter line = withoutMark isBlank ['*'] line := by
  rw [withoutGutter]
  split
  · next hmark => exact (withoutMark_of_append hmark).symm
  · next hmark => exact (withoutMark_of_ne hmark).symm

theorem withoutSlashes_eq (line : List Char) :
    withoutSlashes line = withoutMark isBlank ['/', '/', '/'] line := by
  rw [withoutSlashes]
  split
  · next hmark => exact (withoutMark_of_append hmark).symm
  · next hmark => exact (withoutMark_of_ne hmark).symm

end Mark

theorem withoutMark_suffix (skip : Char → Bool) (mark line : List Char) :
    withoutMark skip mark line <:+ line := by
  rw [withoutMark]
  split
  · exact (dropBlank_suffix _).trans ((List.drop_suffix _ _).trans (List.dropWhile_suffix skip))
  · exact List.suffix_rfl

theorem trimEmpty_nil_cons (ls : List (List Char)) : trimEmpty ([] :: ls) = trimEmpty ls := rfl

theorem trimEmpty_eq_self {ls : List (List Char)} (hfirst : ls.head? ≠ some []) (hlast : ls.getLast? ≠ some []) :
    trimEmpty ls = ls := by
  have hkeep {rows : List (List Char)} (h : rows.head? ≠ some []) : rows.dropWhile List.isEmpty = rows := by
    cases rows with
    | nil => rfl
    | cons row rows =>
        refine List.dropWhile_cons_of_neg fun hempty => h ?_
        rw [List.head?_cons, List.isEmpty_iff.mp hempty]
  rw [trimEmpty, hkeep hfirst, hkeep (by rwa [List.head?_reverse]), List.reverse_reverse]

/-- A text without its closing mark, without the stars in front of that mark, and without the blanks in front of
those. -/
theorem withoutClose_append_close (b : List Char) :
    withoutClose (b ++ ['*', '/']) = dropEndWhile isBlank (dropEndWhile (· == '*') b) := by
  rw [withoutClose, List.reverse_append, dropEndWhile, dropEndWhile, List.reverse_reverse]
  rfl

/-- A line comment of one line. -/
theorem lineBody_of_not_mem {cs : List Char} (h : '\n' ∉ cs) : lineBody cs = trimEnd (withoutSlashes cs) := by
  have hrest : '\n' ∉ withoutSlashes cs := fun hmem =>
    h ((withoutSlashes_eq cs ▸ withoutMark_suffix _ _ _ : withoutSlashes cs <:+ cs).mem hmem)
  rw [lineBody, segments_of_not_mem h, List.map_singleton, joinLines_singleton]
  by_cases hne : withoutSlashes cs = []
  · rw [hne]
    rfl
  · rw [lines_of_not_mem hrest hne, List.map_singleton, joinLines_singleton]

end Comment

end BluespecDocs
