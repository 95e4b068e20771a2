import BluespecDocs.Proofs.LeftmostSearch
import BluespecDocs.Proofs.LineNumbers

/-!
Searching on behind a declaration. A declaration takes the documentation that waits, so nothing is carried
over it: what a search records behind it is what a search of the rest of the text records, moved on by the
bytes and lines that the rest of the text was cut off from.
-/

namespace BluespecDocs

open Rule

/-- A declaration moved on by some bytes and lines. -/
def Declaration.moved (bytes lines : Nat) (d : Declaration) : Declaration :=
  ⟨d.construct.mapOffsets (· + bytes), d.span.mapOffsets (· + bytes), d.line + lines, d.hasParameters, d.doc⟩

/-- A declaration with its offsets moved, and its line moved on by as much as its start calls for. -/
def Declaration.relocate (move extra : Nat → Nat) (d : Declaration) : Declaration :=
  ⟨d.construct.mapOffsets move, d.span.mapOffsets move, d.line + extra d.span.start, d.hasParameters, d.doc⟩

theorem Declaration.relocate_ofConstruct (move extra : Nat → Nat) (construct : Construct) (span : Span) (line : Nat)
    (doc : Option String) :
    (ofConstruct construct span line doc).relocate move extra =
      ofConstruct (construct.mapOffsets move) (span.mapOffsets move) (line + extra span.start) doc := by
  rw [relocate, ofConstruct, ofConstruct, Construct.hasParameters_mapOffsets]

namespace Contents

/-- Contents of one text and then of another. -/
def append (a b : Contents) : Contents :=
  ⟨a.declarations ++ b.declarations, a.imports ++ b.imports, a.exports ++ b.exports⟩

instance : Append Contents := ⟨append⟩

/-- Contents moved on by some bytes and lines. -/
def moved (bytes lines : Nat) (contents : Contents) : Contents where
  declarations := contents.declarations.map (Declaration.moved bytes lines)
  imports := contents.imports.map (Import.mapOffsets (· + bytes))
  exports := contents.exports.map (Export.mapOffsets (· + bytes))

/-- Contents with all offsets moved, and lines moved on by as much as the starts of their declarations call
for. -/
def relocate (move extra : Nat → Nat) (contents : Contents) : Contents where
  declarations := contents.declarations.map (Declaration.relocate move extra)
  imports := contents.imports.map (Import.mapOffsets move)
  exports := contents.exports.map (Export.mapOffsets move)

/-- What is recorded from an offset on. -/
def fromOffset (offset : Nat) (contents : Contents) : Contents where
  declarations := contents.declarations.filter (offset ≤ ·.span.start)
  imports := contents.imports.filter (offset ≤ ·.span.start)
  exports := contents.exports.filter (offset ≤ ·.span.start)

theorem append_eq (a b : Contents) :
    a ++ b = ⟨a.declarations ++ b.declarations, a.imports ++ b.imports, a.exports ++ b.exports⟩ := rfl

theorem package_relocate (move extra : Nat → Nat) (contents : Contents) :
    (contents.relocate move extra).package? = contents.package? := by
  have hname (d : Declaration) :
      (d.relocate move extra).construct.packageName? = d.construct.packageName? := by
    rw [Declaration.relocate]
    cases d.construct <;> rfl
  rw [package?, package?, relocate, List.findSome?_map]
  exact congrArg (fun read => contents.declarations.findSome? read) (funext hname)

theorem hasParameters_relocate (move extra : Nat → Nat) (contents : Contents) :
    (contents.relocate move extra).declarations.map (·.hasParameters) =
      contents.declarations.map (·.hasParameters) := by
  rw [relocate, List.map_map]
  rfl

theorem fromOffset_append (offset : Nat) (a b : Contents) :
    (a ++ b).fromOffset offset = a.fromOffset offset ++ b.fromOffset offset := by
  simp only [append_eq, fromOffset, List.filter_append]

theorem fromOffset_moved (bytes lines : Nat) (contents : Contents) :
    (contents.moved bytes lines).fromOffset bytes = contents.moved bytes lines := by
  simp [fromOffset, moved, Declaration.moved, Import.mapOffsets, Export.mapOffsets, Span.mapOffsets]

theorem fromOffset_eq_empty {offset : Nat} {contents : Contents}
    (h : ∀ span ∈ contents.spans, span.start < offset) : contents.fromOffset offset = {} := by
  simp only [spans, List.mem_append, List.mem_map] at h
  rw [fromOffset, mk.injEq]
  simp only [List.filter_eq_nil_iff, decide_eq_true_eq, Nat.not_le]
  refine ⟨fun d hd => h _ (.inl ⟨d, hd, rfl⟩), fun i hi => h _ (.inr (.inl ⟨i, hi, rfl⟩)), fun e he => ?_⟩
  exact h _ (.inr (.inr ⟨e, he, rfl⟩))

end Contents

namespace Piece

/-- A piece with its tokens changed by `g`, which moves their places by `move`. -/
def recast (g : Token → Token) (move : Nat → Nat) : Piece → Piece
  | skipped t => skipped (g t)
  | declaration construct q => declaration (construct.mapOffsets move) (q.map g)
  | statement found q => statement (found.mapOffsets move) (q.map g)

section Recast

variable {g : Token → Token} {move : Nat → Nat}

theorem tokens_recast (piece : Piece) : (piece.recast g move).tokens = piece.tokens.map g := by
  cases piece <;> rfl

theorem span_recast (hg : Token.Recasts g move) {piece : Piece} (h : piece.tokens ≠ []) :
    (piece.recast g move).span = piece.span.mapOffsets move := by
  rw [span, span, tokens_recast, ← spanRead_map hg List.nil_suffix (List.length_pos_iff.mpr h), List.map_nil]

theorem ReadBefore.recast (hg : Token.Recasts g move) {us : List Token} {piece : Piece}
    (h : piece.ReadBefore us) : (piece.recast g move).ReadBefore (us.map g) := by
  have hconstruct := (Construct.rule_recast hg).eq_map
  have hstatement := (Statement.rule_recast hg).eq_map
  cases piece with
  | skipped t =>
      have hnone := hconstruct (t :: us)
      have hnone' := hstatement (t :: us)
      rw [h.1] at hnone
      rw [h.2] at hnone'
      exact ⟨hnone, hnone'⟩
  | declaration construct q =>
      have hrule := hconstruct (q ++ us)
      rwa [h, List.map_append] at hrule
  | statement found q =>
      have hrule := hstatement (q ++ us)
      rwa [h, List.map_append] at hrule

/-- The pieces of changed tokens are the changed pieces. -/
theorem leftmost_map (hg : Token.Recasts g move) (ts : List Token) :
    leftmost (ts.map g) = (leftmost ts).map (Piece.recast g move) := by
  induction ts using leftmost_induction with
  | nil =>
      rw [List.map_nil, leftmost]
      rfl
  | piece piece us hread ih =>
      rw [hread.leftmost_eq, List.map_cons, ← ih, ← (hread.recast hg).leftmost_eq, tokens_recast,
        List.map_append]

end Recast

/-- From each piece on, the pieces of a token list are those of the rest of the list. -/
theorem leftmost_flatMap_of_append {ts : List Token} {ps₁ ps₂ : List Piece} (h : leftmost ts = ps₁ ++ ps₂) :
    leftmost (ps₂.flatMap tokens) = ps₂ := by
  induction ts using leftmost_induction generalizing ps₁ with
  | nil =>
      rw [leftmost] at h
      rw [(List.append_eq_nil_iff.mp h.symm).2, List.flatMap_nil, leftmost]
  | piece first us hread ih =>
      rw [hread.leftmost_eq] at h
      cases ps₁ with
      | nil => rw [← List.nil_append ps₂, ← h, List.flatMap_cons, flatMap_tokens_leftmost, hread.leftmost_eq]
      | cons _ ps₁ => exact ih (List.cons.inj h).2

theorem start_lt_stop {ts : List Token} (hts : Token.InOrder ts) {piece : Piece} (h : piece ∈ leftmost ts) :
    piece.span.start < piece.span.stop := by
  obtain ⟨p, us, rfl, hread⟩ := exists_of_mem_leftmost h
  have hne := hread.tokens_ne_nil
  have htokens := hts.right.left
  rw [span_eq piece hne]
  calc (piece.tokens.head hne).span.start
      ≤ (piece.tokens.getLast hne).span.start := htokens.head_le_start hne (List.getLast_mem hne)
    _ < (piece.tokens.getLast hne).span.stop := htokens.nonempty _ (List.getLast_mem hne)

end Piece

namespace Document

theorem digest_append (table : LineTable) (pending : PendingDoc) (ps₁ ps₂ : List Piece) :
    digest table pending (ps₁ ++ ps₂) =
      (let first := digest table pending ps₁
      let second := digest table first.2 ps₂
      (first.1 ++ second.1, second.2)) := by
  induction ps₁ generalizing pending with
  | nil => rfl
  | cons piece ps₁ ih =>
      cases piece with
      | skipped t => exact ih _
      | declaration construct q =>
          rw [List.cons_append, digest, ih]
          rfl
      | statement found q =>
          rw [List.cons_append, digest, ih]
          cases found <;> rfl

/-- What is made of moved pieces is moved in the same way. -/
theorem digest_map {table table' : LineTable} {move extra : Nat → Nat}
    (hlines : ∀ n, table.lineOf (move n) = table'.lineOf n + extra n) (pending : PendingDoc)
    {ps : List Piece} (hne : ∀ piece ∈ ps, piece.tokens ≠ []) :
    digest table pending (ps.map (Piece.recast (Token.mapOffsets move) move)) =
      (let found := digest table' pending ps
      (found.1.relocate move extra, found.2)) := by
  induction ps generalizing pending with
  | nil => rfl
  | cons piece ps ih =>
      have ih := fun pending => ih pending fun other hmem => hne other (List.mem_cons_of_mem piece hmem)
      cases piece with
      | skipped t => exact ih (pending.pass t)
      | declaration construct q =>
          have hspan := Piece.span_recast (Token.recasts_mapOffsets move) (hne _ List.mem_cons_self)
          rw [List.map_cons, Piece.recast, digest, ih]
          rw [Piece.recast] at hspan
          rw [hspan, Span.mapOffsets, hlines, ← Span.mapOffsets, ← Declaration.relocate_ofConstruct]
          rfl
      | statement found q =>
          rw [List.map_cons, Piece.recast, digest, ih]
          cases found <;> rfl

theorem exists_piece_of_mem_spans {table : LineTable} {pending : PendingDoc} {ps : List Piece}
    (hspan : ∀ found q, Piece.statement found q ∈ ps → found.span = (Piece.statement found q).span)
    {span : Span} (h : span ∈ (digest table pending ps).1.spans) : ∃ piece ∈ ps, piece.span = span := by
  obtain ⟨himports, hexports⟩ := digest_statementSpans table pending hspan
  rw [Contents.spans, digest_declarationSpans, himports, hexports, ← List.map_append, ← List.map_append] at h
  obtain ⟨piece, hmem, heq⟩ := List.mem_map.mp h
  exact ⟨piece, (Piece.mem_recorded.mp hmem).1, heq⟩

end Document

/-- Behind some of its first tokens, the tokens of a text are those of the rest of the text, moved on. -/
theorem Token.exists_lex_rest {source : String} {q r : List Token} (hq : q ≠ []) (h : lex source = q ++ r) :
    ∃ passed rest, Span.slice? ⟨0, (q.getLast hq).span.stop⟩ source = some passed ∧
      Span.slice? ⟨(q.getLast hq).span.stop, Text.byteSize source.toList⟩ source = some rest ∧
      source.toList = passed.toList ++ rest.toList ∧
      (q.getLast hq).span.stop = Text.byteSize passed.toList ∧
      r = (lex rest).map (mapOffsets (· + (q.getLast hq).span.stop)) := by
  obtain ⟨b, z, hsource, hstop, -, hrest⟩ := exists_lexFrom_append hq h
  rw [Nat.zero_add] at hstop
  have hpassed := Span.slice_append (a := []) (b := b) (c := z) hsource
  have hbehind := Span.slice_append (a := b) (b := z) (c := []) (by rwa [List.append_nil])
  rw [Text.byteSize, Nat.zero_add] at hpassed
  rw [← Text.byteSize_append, ← hsource] at hbehind
  refine ⟨String.ofList b, String.ofList z, hstop ▸ hpassed, hstop ▸ hbehind, ?_, ?_, ?_⟩
  · rw [String.toList_ofList, String.toList_ofList, hsource]
  · rw [String.toList_ofList, hstop]
  · rw [lex, String.toList_ofList, ← lexFrom_add, Nat.zero_add, hrest]

namespace Document

/-- What is made of the pieces of a text is what is made of them up to a declaration and then what is made of
the rest of the text. -/
theorem exists_digest_rest {source : String} {construct : Construct} {q : List Token} {ps₁ ps₂ : List Piece}
    (h : Piece.leftmost (Token.lex source) = ps₁ ++ .declaration construct q :: ps₂) :
    ∃ passed rest,
      Span.slice? ⟨0, (Piece.declaration construct q).span.stop⟩ source = some passed ∧
      Span.slice? ⟨(Piece.declaration construct q).span.stop, Text.byteSize source.toList⟩ source =
        some rest ∧
      digest (LineTable.ofSource source) .empty (Piece.leftmost (Token.lex source)) =
        (let found := digest (LineTable.ofSource rest) .empty (Piece.leftmost (Token.lex rest))
        ((digest (LineTable.ofSource source) .empty (ps₁ ++ [.declaration construct q])).1 ++
          found.1.moved (Piece.declaration construct q).span.stop (passed.toList.count '\n'), found.2)) := by
  have hq : q ≠ [] := (Piece.readBefore_of_leftmost h).tokens_ne_nil
  have hne : ps₁.flatMap Piece.tokens ++ q ≠ [] := List.append_ne_nil_of_right_ne_nil _ hq
  have hlex := Piece.flatMap_tokens_leftmost (Token.lex source)
  rw [h, List.flatMap_append, List.flatMap_cons, Piece.tokens, ← List.append_assoc] at hlex
  obtain ⟨passed, rest, hpassed, hrest, hsource, hstop, htokens⟩ := Token.exists_lex_rest hne hlex.symm
  rw [List.append_cons] at h
  have hpieces := Piece.leftmost_flatMap_of_append h
  rw [htokens, Piece.leftmost_map (Token.recasts_mapOffsets _)] at hpieces
  have hspan : (Piece.declaration construct q).span.stop =
      ((ps₁.flatMap Piece.tokens ++ q).getLast hne).span.stop := by
    rw [Piece.span_eq (.declaration construct q) hq, List.getLast_append_of_ne_nil hne hq]
    rfl
  have hlines (n : Nat) := LineTable.lineOf_append hsource n
  rw [← hstop] at hlines
  -- A declaration takes what waits, so the rest is read with nothing waiting.
  have hpending :
      (digest (LineTable.ofSource source) .empty (ps₁ ++ [.declaration construct q])).2 = .empty := by
    rw [digest_pending, List.foldl_append]
    rfl
  rw [hspan]
  refine ⟨passed, rest, hpassed, hrest, ?_⟩
  rw [h, digest_append]
  dsimp only
  rw [hpending, ← hpieces, digest_map hlines .empty fun _ => Piece.tokens_ne_nil_of_mem_leftmost]
  rfl

/-- What is recorded up to a piece starts before the end of the piece. -/
theorem fromOffset_digest {ts : List Token} {last : Piece} {ps₁ ps₂ : List Piece} (hts : Token.InOrder ts)
    (h : Piece.leftmost ts = ps₁ ++ last :: ps₂) (table : LineTable) (pending : PendingDoc) :
    (digest table pending (ps₁ ++ [last])).1.fromOffset last.span.stop = {} := by
  have hmem : ∀ piece ∈ ps₁ ++ [last], piece ∈ Piece.leftmost ts := by
    intro piece hpiece
    rw [h, List.append_cons]
    exact List.mem_append_left ps₂ hpiece
  have hapart := (List.pairwise_append.mp (h ▸ Piece.pairwise_leftmost hts)).2.2
  refine Contents.fromOffset_eq_empty fun span hspan => ?_
  obtain ⟨piece, hpiece, rfl⟩ := exists_piece_of_mem_spans
    (fun found q hfound => Piece.statement_span_of_mem_leftmost (hmem _ hfound)) hspan
  have hlt := Piece.start_lt_stop hts (hmem piece hpiece)
  have hlast := Piece.start_lt_stop hts (hmem last (List.mem_append_right ps₁ List.mem_cons_self))
  rcases List.mem_append.mp hpiece with hpiece | hpiece
  · have := hapart piece hpiece last List.mem_cons_self
    omega
  · obtain rfl := List.mem_singleton.mp hpiece
    exact hlt

end Document

/-- Behind a declaration, a search records what a search of the rest of the text records. -/
theorem scan_restarts (before other : Extractor) (source path : String) (earlier later : List Declaration)
    (d : Declaration) (hd : (before.scan source path).1.declarations = earlier ++ d :: later) :
    ∃ passed rest, Span.slice? ⟨0, d.span.stop⟩ source = some passed ∧
      Span.slice? ⟨d.span.stop, Text.byteSize source.toList⟩ source = some rest ∧
      let whole := before.scan source path
      let restart := other.scan rest path
      let moved := restart.1.toContents.moved d.span.stop (passed.toList.count '\n')
      moved.declarations = later ∧ moved = whole.1.toContents.fromOffset d.span.stop ∧
        restart.1.declarations.map (·.hasParameters) = later.map (·.hasParameters) ∧
        restart.2 = whole.2 := by
  rw [Extractor.scan_eq] at hd
  obtain ⟨ps₁, q, ps₂, hps, hearlier, hspan, -⟩ := Document.exists_piece_of_digest hd
  obtain ⟨passed, rest, hpassed, hrest, hdigest⟩ := Document.exists_digest_rest hps
  have hbefore := Document.fromOffset_digest (Token.lex_inOrder source) hps (LineTable.ofSource source) .empty
  have hspans := Document.digest_declarationSpans (LineTable.ofSource source) .empty
    (ps₁ ++ [.declaration d.construct q])
  rw [← hspan] at hpassed hrest hdigest hbefore
  rw [hdigest] at hd
  refine ⟨passed, rest, hpassed, hrest, ?_⟩
  rw [Extractor.scan_eq, Extractor.scan_eq, hdigest]
  dsimp only at hd ⊢
  generalize Document.digest (LineTable.ofSource source) .empty (ps₁ ++ [.declaration d.construct q]) =
    first at *
  generalize Document.digest (LineTable.ofSource rest) .empty (Piece.leftmost (Token.lex rest)) = found at *
  have hlength : first.1.declarations.length = (earlier ++ [d]).length := by
    have hfirst := congrArg List.length hspans
    have hothers := congrArg List.length hearlier
    simp only [List.length_map, Piece.ofKind, List.filter_append, List.length_append] at hfirst hothers ⊢
    rw [hfirst, hothers]
    rfl
  have hlater : (found.1.moved d.span.stop (passed.toList.count '\n')).declarations = later := by
    rw [Contents.append_eq, List.append_cons] at hd
    exact List.append_inj_right hd hlength
  refine ⟨hlater, ?_, ?_, rfl⟩
  · rw [Contents.fromOffset_append, hbefore, Contents.fromOffset_moved]
    rfl
  · rw [← hlater, Contents.moved, List.map_map]
    rfl

/-- A function over two lines in front of a documented one with a function inside. -/
theorem scan_restarts_nested :
    ∃ d later, (({} : Extractor).scan
        "function f;\nendfunction /// b\nfunction g; function h; endfunction endfunction" "").1.declarations =
          d :: later ∧
      d.span = ⟨0, 23⟩ ∧ later.map (fun e => (e.span, e.line, e.doc)) = [(⟨30, 77⟩, 3, some "\nb")] ∧
      ((({} : Extractor).scan " /// b\nfunction g; function h; endfunction endfunction" "").1.toContents.moved
        23 1).declarations = later := by
  have hrecorded : (({} : Extractor).scan
      "function f;\nendfunction /// b\nfunction g; function h; endfunction endfunction" "").1.declarations.map
        (fun e => (e.span, e.line, e.doc)) = [(⟨0, 23⟩, 1, none), (⟨30, 77⟩, 3, some "\nb")] := by
    decide +kernel
  have hpassed : Span.slice? ⟨0, 23⟩
      "function f;\nendfunction /// b\nfunction g; function h; endfunction endfunction" =
        some "function f;\nendfunction" := by decide +kernel
  have hrest : Span.slice? ⟨23, 77⟩
      "function f;\nendfunction /// b\nfunction g; function h; endfunction endfunction" =
        some " /// b\nfunction g; function h; endfunction endfunction" := by decide +kernel
  obtain ⟨d, later, hlist, hd, hlater⟩ := List.map_eq_cons_iff.mp hrecorded
  obtain ⟨passed, rest, hslice, hslice', hdeclarations, -⟩ := scan_restarts {} {} _ "" [] later d hlist
  have hspan : d.span = ⟨0, 23⟩ := (Prod.mk.inj hd).1
  rw [hspan] at hslice hslice' hdeclarations
  obtain rfl := Option.some.inj (hslice.symm.trans hpassed)
  obtain rfl := Option.some.inj (hslice'.symm.trans hrest)
  exact ⟨d, later, hlist, hspan, hlater, hdeclarations⟩

end BluespecDocs
