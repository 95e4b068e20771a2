import BluespecDocs.Proofs.CommentBodies
import BluespecDocs.Proofs.LayoutInsertion

/-!
Two ways to write documentation: as one line comment for each line, or as a block with a star in front of each
line. Both give the same documentation to the declaration behind them.
-/

namespace BluespecDocs

open Rule Text Token

namespace Comment

/-- The ways to write documentation of several lines. -/
inductive Style where
  | lineByLine | block
deriving DecidableEq

/-- Documentation in the given style, each line on a line of its own. -/
def Style.write (style : Style) (ls : List String) : String :=
  match style with
  | lineByLine => String.join (ls.map fun l => "/// " ++ l ++ "\n")
  | block => "/**\n" ++ String.join (ls.map fun l => " * " ++ l ++ "\n") ++ " */\n"

/-- A line of documentation that both styles can hold. -/
structure IsDocLine (l : String) : Prop where
  newline : '\n' ∉ l.toList
  trimmed : ∀ c ∈ l.toList.getLast?, isWhitespace c = false
  close : ¬ "*/".toList <:+: l.toList
  backslash : l.toList.getLast? ≠ some '\\'

theorem isDocLine_iff (l : String) : IsDocLine l ↔
    '\n' ∉ l.toList ∧ l.toList.getLast?.any isWhitespace = false ∧ ¬ "*/".toList <:+: l.toList ∧
      l.toList.getLast? ≠ some '\\' := by
  rw [Option.any_eq_false]
  constructor
  · exact fun h => ⟨h.newline, h.trimmed, h.close, h.backslash⟩
  · rintro ⟨hnewline, htrimmed, hclose, hbackslash⟩
    exact ⟨hnewline, htrimmed, hclose, hbackslash⟩

instance (l : String) : Decidable (IsDocLine l) := decidable_of_iff _ (isDocLine_iff l).symm

/-- A text of comments only that adds `doc` to the documentation that waits, whatever stands behind it. -/
def Adds (doc : String) (front : List Char) : Prop :=
  ∀ pos z, ∃ ts, lexFrom pos (front ++ z) = ts ++ lexFrom (pos + byteSize front) z ∧
    (∀ t ∈ ts, t.commentKind?.isSome) ∧
    ∀ pending : PendingDoc, ts.foldl PendingDoc.pass pending = ⟨pending.text ++ doc⟩

namespace Adds

theorem nil : Adds "" [] :=
  fun pos z => ⟨[], rfl, by simp, fun pending => by rw [String.append_empty]; rfl⟩

theorem append {doc doc' : String} {a b : List Char} (ha : Adds doc a) (hb : Adds doc' b) :
    Adds (doc ++ doc') (a ++ b) := by
  intro pos z
  obtain ⟨ts, hlex, hts, hpass⟩ := ha pos (b ++ z)
  obtain ⟨us, hlex', hus, hpass'⟩ := hb (pos + byteSize a) z
  refine ⟨ts ++ us, ?_, ?_, ?_⟩
  · rw [List.append_assoc, hlex, hlex', List.append_assoc, byteSize_append, Nat.add_assoc]
  · intro t ht
    exact (List.mem_append.mp ht).elim (hts t) (hus t)
  · intro pending
    rw [List.foldl_append, hpass, hpass', String.append_assoc]

/-- A documentation comment with a newline behind it. -/
theorem comment {kind : CommentKind} {x : List Char} (hkind : kind.isDoc)
    (hfirst : ∀ z, Lexeme.first ('/' :: (x ++ '\n' :: z)) = (.comment kind, x.length + 1)) :
    Adds ("\n" ++ kind.body (String.ofList ('/' :: x))) ('/' :: (x ++ ['\n'])) := by
  intro pos z
  refine ⟨[⟨.comment kind, String.ofList ('/' :: x), ⟨pos, pos + byteSize ('/' :: x)⟩⟩], ?_, ?_, ?_⟩
  · rw [List.cons_append, List.append_assoc, List.singleton_append, lexFrom_token (by decide) (hfirst z),
      lexFrom_layout (by decide), ← List.cons_append, byteSize_append, ← Nat.add_assoc]
    rfl
  · simp [commentKind?]
  · intro pending
    simp only [List.foldl_cons, List.foldl_nil, PendingDoc.pass, commentKind?, PendingDoc.observe]
    rw [if_pos hkind, String.append_assoc]

end Adds

theorem lineTail_append_newline {l : List Char} (hl : '\n' ∉ l) (hlast : l.getLast? ≠ some '\\') (r : List Char) :
    Lexeme.lineTail (l ++ '\n' :: r) = l.length := by
  induction l with
  | nil => exact Lexeme.lineTail_newline r
  | cons c l ih =>
      obtain ⟨hc, hl⟩ := List.ne_and_not_mem_of_not_mem_cons hl
      cases l with
      | nil =>
          have hbackslash : c ≠ '\\' := by simpa using hlast
          rw [List.singleton_append, Lexeme.lineTail, Lexeme.lineTail_newline, if_neg hc.symm]
          · rfl
          · exact fun cs h => absurd h hbackslash
      | cons d l =>
          have hd : d ≠ '\n' := (List.ne_and_not_mem_of_not_mem_cons hl).1.symm
          rw [List.cons_append, Lexeme.lineTail_cons_of_ne hc.symm (by simpa using hd),
            ih hl (by rwa [List.getLast?_cons_cons] at hlast), Nat.add_comm]
          rfl

namespace IsDocLine

variable {l : String}

/-- What stands at the end of a line of documentation behind a blank. -/
theorem getLast_ne (h : IsDocLine l) (mark : List Char) {c : Char} (hc : c = '\r' ∨ c = '\\') :
    (mark ++ ' ' :: l.toList).getLast? ≠ some c := by
  rw [List.getLast?_append_of_ne_nil _ (List.cons_ne_nil _ _)]
  cases hlast : l.toList.getLast? with
  | none =>
      rw [List.getLast?_eq_none_iff.mp hlast, List.getLast?_singleton]
      rcases hc with rfl | rfl <;> decide
  | some d =>
      have hne : l.toList ≠ [] := fun hnil => by simp [hnil] at hlast
      rw [List.getLast?_cons_of_ne_nil hne, hlast]
      rintro ⟨⟩
      rcases hc with rfl | rfl
      · exact absurd (h.trimmed _ hlast) (by decide)
      · exact h.backslash hlast

theorem newline_not_mem (h : IsDocLine l) {mark : List Char} (hmark : '\n' ∉ mark) :
    '\n' ∉ mark ++ ' ' :: l.toList := by
  have hblank : '\n' ≠ ' ' := by decide
  simp [hmark, hblank, h.newline]

theorem lineBody_eq (h : IsDocLine l) : lineBody ("///".toList ++ ' ' :: l.toList) = l.toList := by
  rw [lineBody_of_not_mem (h.newline_not_mem (by decide))]
  exact trimEnd_eq_self h.trimmed

theorem adds_line (h : IsDocLine l) : Adds ("\n" ++ l) ("/// " ++ l ++ "\n").toList := by
  have hfirst (z : List Char) : Lexeme.first ('/' :: ('/' :: '/' :: ' ' :: l.toList ++ '\n' :: z)) =
      (.comment .docLine, ('/' :: '/' :: ' ' :: l.toList).length + 1) := by
    have htail : Lexeme.lineTail ('/' :: ' ' :: (l.toList ++ '\n' :: z)) = l.toList.length + 2 :=
      lineTail_append_newline (@newline_not_mem l h ['/'] (by decide)) (h.getLast_ne ['/'] (.inr rfl)) z
    simp only [List.cons_append, List.length_cons]
    rw [Lexeme.first_slashes, htail, Nat.add_comm]
    rfl
  have hadds := Adds.comment rfl hfirst
  have hbody : CommentKind.docLine.body (String.ofList ('/' :: '/' :: '/' :: ' ' :: l.toList)) = l := by
    rw [CommentKind.body, String.toList_ofList]
    exact (congrArg String.ofList h.lineBody_eq).trans String.ofList_toList
  rw [hbody] at hadds
  rw [String.toList_append, String.toList_append]
  exact hadds

end IsDocLine

variable {ls : List String}

theorem adds_lineByLine (h : ∀ l ∈ ls, IsDocLine l) :
    Adds (String.join (ls.map fun l => "\n" ++ l)) (Style.lineByLine.write ls).toList := by
  rw [Style.write]
  induction ls with
  | nil => exact Adds.nil
  | cons l ls ih =>
      have hline := (h l List.mem_cons_self).adds_line
      have hrest := ih fun other hother => h other (List.mem_cons_of_mem l hother)
      rw [List.map_cons, List.map_cons, String.join_cons, String.join_cons, String.toList_append]
      exact hline.append hrest

/-- The lines of a block between its opening and its closing mark. -/
def rows (ls : List String) : List Char := ls.flatMap fun l => ' ' :: '*' :: ' ' :: (l.toList ++ ['\n'])

theorem rows_cons (l : String) (ls : List String) :
    rows (l :: ls) = [' ', '*'] ++ ' ' :: l.toList ++ '\n' :: rows ls := by
  simp [rows]

theorem toList_block (ls : List String) :
    (Style.block.write ls).toList = '/' :: ('*' :: '*' :: '\n' :: (rows ls ++ [' ', '*', '/']) ++ ['\n']) := by
  simp [Style.write, rows, String.toList_join, List.flatMap_map]

theorem beforeClose_eq_none_of_not_infix {cs : List Char} (h : ¬ "*/".toList <:+: cs) :
    Lexeme.beforeClose? cs = none := by
  cases hclose : Lexeme.beforeClose? cs with
  | none => rfl
  | some n =>
      obtain ⟨body, z, rfl, -⟩ := Lexeme.exists_body_of_beforeClose hclose
      exact absurd ⟨body, z, by simp⟩ h

/-- No closing mark stands in the lines of a block. -/
theorem beforeClose_rows (h : ∀ l ∈ ls, IsDocLine l) (z : List Char) :
    Lexeme.beforeClose? (rows ls ++ z) = none ↔ Lexeme.beforeClose? z = none := by
  induction ls with
  | nil => rfl
  | cons l ls ih =>
      have hline := beforeClose_eq_none_of_not_infix (h l List.mem_cons_self).close
      have hnil : Lexeme.beforeClose? [] = none := rfl
      have hstar : Lexeme.beforeClose? ['*'] = none := rfl
      have htext : rows (l :: ls) ++ z = [] ++ ' ' :: (['*'] ++ ' ' :: (l.toList ++ '\n' :: (rows ls ++ z))) := by
        simp [rows_cons]
      rw [htext, Lexeme.beforeClose_layout (by decide), and_iff_right hnil, Lexeme.beforeClose_layout (by decide),
        and_iff_right hstar, Lexeme.beforeClose_layout (by decide), and_iff_right hline]
      exact ih fun other hother => h other (List.mem_cons_of_mem l hother)

theorem lines_rows (h : ∀ l ∈ ls, IsDocLine l) :
    lines (rows ls) = ls.map fun l => [' ', '*'] ++ ' ' :: l.toList := by
  induction ls with
  | nil => rfl
  | cons l ls ih =>
      have hline := h l List.mem_cons_self
      rw [rows_cons, lines_append_newline (hline.newline_not_mem (by decide)) (hline.getLast_ne _ (.inl rfl)),
        ih fun other hother => h other (List.mem_cons_of_mem l hother), List.map_cons]

theorem exists_newline_rows (ls : List String) : ∃ y, '\n' :: rows ls = y ++ ['\n'] := by
  induction ls with
  | nil => exact ⟨[], rfl⟩
  | cons l ls ih =>
      obtain ⟨y, hy⟩ := ih
      exact ⟨'\n' :: ([' ', '*'] ++ ' ' :: l.toList) ++ y, by rw [rows_cons, hy]; simp⟩

theorem blockBody_rows (h : ∀ l ∈ ls, IsDocLine l) (hfirst : ls.head? ≠ some "") (hlast : ls.getLast? ≠ some "") :
    blockBody ('/' :: '*' :: '*' :: '\n' :: (rows ls ++ [' ', '*', '/'])) = joinLines (ls.map String.toList) := by
  -- The blank in front of the closing mark goes with the mark, and the newline before it stays.
  obtain ⟨y, hy⟩ := exists_newline_rows ls
  have hclose : withoutClose ('/' :: '*' :: '*' :: '\n' :: (rows ls ++ [' ', '*', '/'])) =
      "/**".toList ++ '\n' :: rows ls := by
    have htext : '/' :: '*' :: '*' :: '\n' :: (rows ls ++ [' ', '*', '/']) =
        "/**".toList ++ y ++ ['\n'] ++ [' '] ++ ['*', '/'] := by
      rw [List.append_assoc _ y, ← hy]
      simp
    rw [htext, withoutClose_append_close, dropEndWhile_concat_of_neg (by decide),
      dropEndWhile_concat_of_pos (by decide), dropEndWhile_concat_of_neg (by decide), List.append_assoc, ← hy]
  have hlines : (blockLines ('/' :: '*' :: '*' :: '\n' :: (rows ls ++ [' ', '*', '/']))).map trimEnd =
      [] :: ls.map String.toList := by
    rw [blockLines, hclose, lines_append_newline (by decide) (by decide), lines_rows h]
    dsimp only
    rw [List.map_cons, List.map_map, List.map_map]
    refine congrArg₂ List.cons rfl (List.map_congr_left fun l hl => ?_)
    exact trimEnd_eq_self (h l hl).trimmed
  rw [blockBody, hlines, trimEmpty_nil_cons, trimEmpty_eq_self]
  · rw [List.head?_map, Ne, Option.map_eq_some_iff]
    rintro ⟨l, hl, hempty⟩
    exact hfirst (hl.trans (congrArg some (String.toList_eq_nil_iff.mp hempty)))
  · rw [List.getLast?_map, Ne, Option.map_eq_some_iff]
    rintro ⟨l, hl, hempty⟩
    exact hlast (hl.trans (congrArg some (String.toList_eq_nil_iff.mp hempty)))

/-- A block adds its lines with newlines between them. -/
theorem adds_block (h : ∀ l ∈ ls, IsDocLine l) (hfirst : ls.head? ≠ some "") (hlast : ls.getLast? ≠ some "") :
    Adds ("\n" ++ "\n".intercalate ls) (Style.block.write ls).toList := by
  have hopen (z : List Char) :
      Lexeme.first ('/' :: ('*' :: '*' :: '\n' :: (rows ls ++ [' ', '*', '/']) ++ '\n' :: z)) =
        (.comment .docBlock, ('*' :: '*' :: '\n' :: (rows ls ++ [' ', '*', '/'])).length + 1) := by
    have hrows : ¬ "*/".toList <:+: '*' :: '\n' :: (rows ls ++ [' ']) ++ ['*'] := by
      have htext : '*' :: '\n' :: (rows ls ++ [' ']) ++ ['*'] = ['*'] ++ '\n' :: (rows ls ++ [' ', '*']) := by
        simp
      rw [htext]
      exact Lexeme.not_infix_of_beforeClose ((Lexeme.beforeClose_layout (by decide)).mpr
        ⟨rfl, (beforeClose_rows h _).mpr rfl⟩)
    have htext : '*' :: '*' :: '\n' :: (rows ls ++ [' ', '*', '/']) ++ '\n' :: z =
        '*' :: ('*' :: '\n' :: (rows ls ++ [' ']) ++ '*' :: '/' :: '\n' :: z) := by simp
    rw [htext, Lexeme.first_opening_closed (Lexeme.beforeClose_append_close hrows _)]
    simp [Lexeme.opensDoc]
  have hbody : CommentKind.docBlock.body
      (String.ofList ('/' :: '*' :: '*' :: '\n' :: (rows ls ++ [' ', '*', '/']))) = "\n".intercalate ls := by
    rw [CommentKind.body, String.toList_ofList, blockBody_rows h hfirst hlast, joinLines, ← String.toList_inj,
      String.toList_ofList, String.toList_intercalate]
    rfl
  have hadds := Adds.comment rfl hopen
  rw [hbody] at hadds
  rw [toList_block]
  exact hadds

theorem join_newlines (hne : ls ≠ []) :
    String.join (ls.map fun l => "\n" ++ l) = "\n" ++ "\n".intercalate ls := by
  induction ls with
  | nil => exact absurd rfl hne
  | cons l ls ih =>
      cases ls with
      | nil => simp
      | cons other ls =>
          rw [List.map_cons, String.join_cons, ih (List.cons_ne_nil other ls), String.intercalate_cons_cons,
            String.append_assoc, String.append_assoc]

theorem adds_write (style : Style) (hne : ls ≠ []) (h : ∀ l ∈ ls, IsDocLine l) (hfirst : ls.head? ≠ some "")
    (hlast : ls.getLast? ≠ some "") : Adds ("\n" ++ "\n".intercalate ls) (style.write ls).toList := by
  cases style with
  | lineByLine => exact join_newlines hne ▸ adds_lineByLine h
  | block => exact adds_block h hfirst hlast

end Comment

/-- Comments in front of tokens are pieces of their own. -/
theorem Piece.leftmost_comments {ts : List Token} (h : ∀ t ∈ ts, t.commentKind?.isSome) (us : List Token) :
    leftmost (ts ++ us) = ts.map skipped ++ leftmost us := by
  induction ts with
  | nil => rfl
  | cons t ts ih =>
      rw [List.cons_append, leftmost, if_pos (h t List.mem_cons_self),
        ih fun u hu => h u (List.mem_cons_of_mem t hu)]
      rfl

theorem Document.digest_skipped (table : LineTable) (pending : PendingDoc) (ts : List Token) :
    digest table pending (ts.map .skipped) = ({}, ts.foldl PendingDoc.pass pending) := by
  induction ts generalizing pending with
  | nil => rfl
  | cons t ts ih => exact ih (pending.pass t)

theorem PendingDoc.taken_newline (text : String) : PendingDoc.taken? ⟨"\n" ++ text⟩ = some ("\n" ++ text) := by
  rw [taken?, isEmpty, if_neg]
  simp

/-- A construct behind comments is a document with just that construct, which takes the documentation in the
comments. -/
theorem Extractor.scan_of_adds {front d doc : String} {construct : Construct}
    (hfront : Comment.Adds doc front.toList) (hd : Construct.rule (lex d) = some (construct, []))
    (before : Extractor) (path : String) :
    let span := Piece.span (.declaration construct (lex d))
    before.scan (front ++ d) path =
      (.single path (Declaration.moved (byteSize front.toList) (front.toList.count '\n')
        (.ofConstruct construct span ((LineTable.ofSource d).lineOf span.start) (PendingDoc.taken? ⟨doc⟩))),
        ⟨.empty⟩) := by
  intro span
  obtain ⟨ts, hlex, hts, hpass⟩ := hfront 0 d.toList
  rw [Nat.zero_add] at hlex
  have hwhole := Piece.leftmost_whole hd
  have hpieces : Piece.leftmost (lex (front ++ d)) = ts.map .skipped ++
      [Piece.declaration construct (lex d)].map
        (Piece.recast (mapOffsets (· + byteSize front.toList)) (· + byteSize front.toList)) := by
    rw [lex, String.toList_append, hlex, Piece.leftmost_comments hts, ← hwhole,
      ← Piece.leftmost_map (recasts_mapOffsets _), lex, ← lexFrom_add, Nat.zero_add]
  have hne : ∀ piece ∈ [Piece.declaration construct (lex d)], piece.tokens ≠ [] :=
    hwhole ▸ fun _ => Piece.tokens_ne_nil_of_mem_leftmost
  have hlines := LineTable.lineOf_append (String.toList_append (s := front) (t := d))
  have hdigest := Document.digest_map hlines ⟨doc⟩ hne
  rw [scan_eq, hpieces, Document.digest_append, Document.digest_skipped]
  dsimp only
  rw [hpass, PendingDoc.empty, String.empty_append, hdigest]
  exact congrArg (fun package => (Document.mk _ path package, Extractor.mk .empty)) (Contents.package_singleton _)

/-- Documentation in either style goes, line by line as it was written, to the construct behind it. -/
theorem scan_write_style (ls : List String) (d : String) (construct : Construct) (hne : ls ≠ [])
    (hlines : ∀ l ∈ ls, Comment.IsDocLine l) (hfirst : ls.head? ≠ some "") (hlast : ls.getLast? ≠ some "")
    (hd : complete? Construct.rule (lex d) = some construct) :
    ∃ span line, (∀ (before : Extractor) (path : String),
        before.scan d path = (.single path (.ofConstruct construct span line none), ⟨.empty⟩)) ∧
      ∀ (before : Extractor) (path : String) (style : Comment.Style),
        let written := style.write ls
        before.scan (written ++ d) path =
          (.single path (Declaration.moved (byteSize written.toList) (written.toList.count '\n')
            (.ofConstruct construct span line (some ("\n" ++ "\n".intercalate ls)))), ⟨.empty⟩) := by
  have hrule := complete_eq_some.mp hd
  refine ⟨_, _, Extractor.scan_whole hrule, fun before path style => ?_⟩
  have hadds := Comment.adds_write style hne hlines hfirst hlast
  rw [← PendingDoc.taken_newline]
  exact Extractor.scan_of_adds hadds hrule before path

/-- Three lines with marks in them, over a function with a function inside. -/
theorem scan_write_style_nested :
    (∀ l ∈ ["* a *", "", "  /// b /*"], Comment.IsDocLine l) ∧
      (complete? Construct.rule (lex "\n function f; function g; endfunction endfunction")).isSome ∧
      ∀ style : Comment.Style, ∃ d : Declaration, d.doc = some "\n* a *\n\n  /// b /*" ∧
        ({} : Extractor).scan (style.write ["* a *", "", "  /// b /*"] ++
          "\n function f; function g; endfunction endfunction") "" = (.single "" d, ⟨.empty⟩) := by
  have hlines : ∀ l ∈ ["* a *", "", "  /// b /*"], Comment.IsDocLine l := by decide +kernel
  have hread : (complete? Construct.rule (lex "\n function f; function g; endfunction endfunction")).isSome := by
    decide +kernel
  have hdoc : "\n" ++ "\n".intercalate ["* a *", "", "  /// b /*"] = "\n* a *\n\n  /// b /*" := by decide +kernel
  obtain ⟨construct, hconstruct⟩ := Option.isSome_iff_exists.mp hread
  obtain ⟨span, line, -, hscan⟩ :=
    scan_write_style _ _ construct (by decide) hlines (by decide) (by decide) hconstruct
  exact ⟨hlines, hread, fun style => ⟨_, congrArg some hdoc, hscan {} "" style⟩⟩

end BluespecDocs
