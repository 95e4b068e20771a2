import BluespecDocs.Proofs.CommentBodies
import BluespecDocs.Proofs.FunctionPlaces
import BluespecDocs.Proofs.PlainTokens
import BluespecDocs.Proofs.Rendering
import Mathlib.Data.List.TakeWhile

/-!
Fences in the Markdown form. The source text of a declaration stands between an opening line and a line of
three backquotes, and a reader of Markdown takes the first such line for the end. The lines it takes for the
declaration are all of them exactly if none of them is a fence. Nothing keeps a body that the grammar passes
over from having such a line. A type definition has no such body and no backquote at all.
-/

namespace BluespecDocs

namespace Text

/-- The line that closes a fenced piece of source text. -/
def fence : List Char := "```".toList

/-- Behind an opening line, the lines up to the first that is a fence. -/
def enclosed (ls : List (List Char)) : List (List Char) := ls.takeWhile (· ≠ fence)

theorem enclosed_append_fence (ls rest : List (List Char)) : enclosed (ls ++ fence :: rest) = enclosed ls := by
  induction ls with
  | nil => rw [List.nil_append, enclosed, List.takeWhile_cons_of_neg (by simp)]; rfl
  | cons l ls ih =>
      by_cases hl : l = fence
      · subst hl
        rw [List.cons_append, enclosed, enclosed, List.takeWhile_cons_of_neg (by simp),
          List.takeWhile_cons_of_neg (by simp)]
      · rw [List.cons_append, enclosed, enclosed, List.takeWhile_cons_of_pos (by simpa using hl),
          List.takeWhile_cons_of_pos (by simpa using hl)]
        exact congrArg (l :: ·) ih

theorem enclosed_eq_self {ls : List (List Char)} : enclosed ls = ls ↔ fence ∉ ls := by
  rw [enclosed, List.takeWhile_eq_self_iff]
  simp only [decide_eq_true_eq]
  exact ⟨fun h hmem => h fence hmem rfl, fun h l hl heq => h (heq ▸ hl)⟩

end Text

open Text

namespace Declaration

variable {settings : RenderSettings} {path source piece : String} {d : Declaration}

theorem exists_heading (settings : RenderSettings) (path : String) (d : Declaration) :
    ∃ title, (d.heading settings path).toList = title ++ ['\n'] := by
  have hpackage (text : String) : (text ++ "\n").toList = text.toList ++ ['\n'] := by simp
  have hlink (text : String) : (text ++ ")\n").toList = (text.toList ++ [')']) ++ ['\n'] := by simp
  rw [heading]
  split
  · exact ⟨_, hpackage _⟩
  · exact ⟨_, hlink _⟩

/-- What stands in front of the source text in an entry ends with a newline. -/
theorem exists_front (settings : RenderSettings) (path : String) (d : Declaration) :
    ∃ front, (d.heading settings path ++ d.docLines).toList = front ++ ['\n'] := by
  obtain ⟨title, htitle⟩ := exists_heading settings path d
  rw [String.toList_append, htitle, docLines]
  split
  · next doc _ => exact ⟨title ++ '\n' :: doc.toList, by simp⟩
  · exact ⟨title, List.append_nil _⟩

/-- The lines of an entry: those of the heading and the documentation, the opening line, those of the source
text, a fence, and an empty line. The last line has no newline behind it and is empty too. -/
theorem exists_entry_lines (hpackage : d.isPackage = false) (hpiece : d.span.slice? source = some piece)
    (hlanguage : '\n' ∉ settings.codeLanguage.toList) :
    ∃ entry front, d.markdown? settings path source = some entry ∧
      segments '\n' (d.heading settings path ++ d.docLines).toList = front ++ [[]] ∧
      segments '\n' entry.toList = front ++ (fence ++ settings.codeLanguage.toList) ::
        (segments '\n' piece.toList ++ [fence, [], []]) := by
  obtain ⟨front, hfront⟩ := exists_front settings path d
  have hopening : '\n' ∉ fence ++ settings.codeLanguage.toList := by
    rw [List.mem_append, not_or]
    exact ⟨by decide, hlanguage⟩
  refine ⟨_, segments '\n' front, by rw [markdown?, if_neg (by simp [hpackage]), hpiece]; rfl, ?_, ?_⟩
  · rw [hfront, segments_append_cons]
    rfl
  · have hentry : (d.heading settings path ++ d.docLines ++ fenced settings piece ++ "\n").toList =
        front ++ '\n' :: ((fence ++ settings.codeLanguage.toList) ++
          '\n' :: (piece.toList ++ '\n' :: (fence ++ '\n' :: ['\n']))) := by
      rw [String.toList_append, String.toList_append, hfront, fenced]
      simp [fence]
    rw [hentry, segments_append_cons, segments_append_cons, segments_of_not_mem hopening, segments_append_cons,
      segments_append_cons, segments_of_not_mem (by decide : '\n' ∉ fence)]
    rfl

end Declaration

theorem fence_not_mem_of_backquote {cs : List Char} (h : '\x60' ∉ cs) : fence ∉ segments '\n' cs :=
  fun hmem => h (mem_of_mem_segments hmem (by decide))

/-- The Markdown form of a document has an entry for each declaration that is not a package. Its source text
stands between an opening line and a fence. Read up to the first fence, it is the lines of the source text up
to the first that is a fence, so it is all of them exactly if none is. None is in a type definition. -/
theorem markdown_encloses (before : Extractor) (source path : String) (settings : RenderSettings)
    (hlanguage : '\n' ∉ settings.codeLanguage.toList) (d : Declaration)
    (hd : d ∈ (before.scan source path).1.declarations) (hpackage : d.isPackage = false) :
    ∃ earlier entry later piece front,
      (before.scan source path).1.markdown? settings source = some (earlier ++ entry ++ later) ∧
      d.markdown? settings path source = some entry ∧ d.span.slice? source = some piece ∧
      segments '\n' (d.heading settings path ++ d.docLines).toList = front ++ [[]] ∧
      ∃ behind, segments '\n' entry.toList = front ++ (fence ++ settings.codeLanguage.toList) :: behind ∧
        behind = segments '\n' piece.toList ++ [fence, [], []] ∧
        enclosed behind = enclosed (segments '\n' piece.toList) ∧
        (enclosed behind = segments '\n' piece.toList ↔ fence ∉ segments '\n' piece.toList) ∧
        ∀ defined, d.construct = .ofTypedef defined → enclosed behind = segments '\n' piece.toList := by
  obtain ⟨piece, hpiece⟩ := Option.isSome_iff_exists.mp (Extractor.isSome_slice_of_mem hd)
  obtain ⟨entry, front, hentry, hfront, hlines⟩ := d.exists_entry_lines hpackage hpiece hlanguage
  obtain ⟨earlier, later, hmarkdown⟩ := Document.exists_markdown_split settings
    (fun d hd => Extractor.isSome_slice_of_mem hd) hd hentry
  have hbehind := enclosed_append_fence (segments '\n' piece.toList) [[], []]
  refine ⟨earlier, entry, later, piece, front, hmarkdown, hentry, hpiece, hfront, _, hlines, rfl, hbehind, ?_,
    fun defined hdefined => ?_⟩
  · rw [hbehind]
    exact enclosed_eq_self
  · rw [hbehind]
    exact enclosed_eq_self.mpr (fence_not_mem_of_backquote
      (Extractor.backquote_not_mem_typedef hd hdefined hpiece))

/-- A module behind a type definition, with a directive and a quoted backquote in its body. -/
theorem markdown_encloses_module :
    ∃ d ∈ (({} : Extractor).scan "typedef Bool T;\nmodule m;\n `X \"`\"\nendmodule" "m.bsv").1.declarations,
      '\n' ∉ "bluespec".toList ∧ d.isPackage = false ∧ d.construct.name.name = "m" ∧
      ∃ entry front behind, d.markdown? {} "m.bsv"
          "typedef Bool T;\nmodule m;\n `X \"`\"\nendmodule" = some entry ∧
        segments '\n' entry.toList = front ++ "```bluespec".toList :: behind ∧
        enclosed behind = ["module m;".toList, " `X \"`\"".toList, "endmodule".toList] := by
  have hsecond : (({} : Extractor).scan "typedef Bool T;\nmodule m;\n `X \"`\"\nendmodule"
      "m.bsv").1.declarations[1]?.map (fun d => (d.isPackage, d.construct.name.name, d.span)) =
      some (false, "m", ⟨16, 43⟩) := by decide +kernel
  obtain ⟨d, hget, hd⟩ := Option.map_eq_some_iff.mp hsecond
  obtain ⟨hpackage, hname, hspan⟩ : d.isPackage = false ∧ d.construct.name.name = "m" ∧ d.span = ⟨16, 43⟩ := by
    simpa using hd
  have hslice : Span.slice? ⟨16, 43⟩ "typedef Bool T;\nmodule m;\n `X \"`\"\nendmodule" =
      some "module m;\n `X \"`\"\nendmodule" := by decide +kernel
  have hlanguage : '\n' ∉ "bluespec".toList := by decide
  obtain ⟨-, entry, -, piece, front, -, hentry, hpiece, -, behind, hlines, -, -, hiff, -⟩ :=
    markdown_encloses {} "typedef Bool T;\nmodule m;\n `X \"`\"\nendmodule" "m.bsv" {} hlanguage d
      (List.mem_of_getElem? hget) hpackage
  rw [hspan, hslice] at hpiece
  obtain rfl := Option.some.inj hpiece
  refine ⟨d, List.mem_of_getElem? hget, hlanguage, hpackage, hname, entry, front, behind, hentry, hlines, ?_⟩
  exact (hiff.mpr (by decide)).trans (by decide)

/-- A line of three backquotes in a module: read up to the first fence, the entry has only the first of the
three lines of the module. -/
theorem fence_in_body_closes_early :
    Document.markdown? {} "module m;\n```\nendmodule\n"
        (Document.ofSource "module m;\n```\nendmodule\n" "m.bsv") =
      some "## [m](m.bsv#L1)\n```bluespec\nmodule m;\n```\nendmodule\n```\n\n" ∧
    segments '\n' "## [m](m.bsv#L1)\n```bluespec\nmodule m;\n```\nendmodule\n```\n\n".toList =
      "## [m](m.bsv#L1)".toList :: "```bluespec".toList ::
        (segments '\n' "module m;\n```\nendmodule".toList ++ [fence, [], []]) ∧
    enclosed (segments '\n' "module m;\n```\nendmodule".toList ++ [fence, [], []]) = ["module m;".toList] ∧
    segments '\n' "module m;\n```\nendmodule".toList =
      ["module m;".toList, fence, "endmodule".toList] := by
  refine ⟨?_, ?_, ?_, ?_⟩ <;> decide +kernel

end BluespecDocs
