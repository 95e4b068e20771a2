import BluespecDocs.Proofs.DeclarationCut
import BluespecDocs.Proofs.LineNumbers
import BluespecDocs.Proofs.Pieces

/-!
A declaration stands on its own. The text that its span cuts out of the source is a source text with just
that declaration in it: the tokens are the same, moved to the start, and the rule that read the declaration
with the rest of the source in view reads it again without.
-/

namespace BluespecDocs

open Rule

/-- A declaration of a source text with the tokens it was read from and the tokens around them. -/
theorem Extractor.exists_tokens_of_mem {before : Extractor} {source path : String} {d : Declaration}
    (h : d ∈ (before.scan source path).1.declarations) :
    ∃ p q us, ∃ hq : q ≠ [], Token.lex source = p ++ (q ++ us) ∧
      d.span = ⟨(q.head hq).span.start, (q.getLast hq).span.stop⟩ ∧
      Construct.rule (q ++ us) = some (d.construct, us) := by
  obtain ⟨earlier, later, hsplit⟩ := List.append_of_mem h
  rw [scan_eq] at hsplit
  obtain ⟨ps₁, q, ps₂, hps, -, hspan, -⟩ := Document.exists_piece_of_digest hsplit
  have hmem : .declaration d.construct q ∈ Piece.leftmost (Token.lex source) :=
    hps ▸ List.mem_append_right ps₁ List.mem_cons_self
  obtain ⟨p, us, hlex, hread⟩ := Piece.exists_of_mem_leftmost hmem
  exact ⟨p, q, us, hread.tokens_ne_nil, hlex, hspan.trans (Piece.span_eq _ hread.tokens_ne_nil), hread⟩

/-- A text that is one construct from its first to its last byte is a document with just that construct. -/
theorem Extractor.scan_of_rule {text : String} {construct : Construct} (hne : Token.lex text ≠ [])
    (hrule : Construct.rule (Token.lex text) = some (construct, []))
    (hstart : ((Token.lex text).head hne).span.start = 0)
    (hstop : ((Token.lex text).getLast hne).span.stop = Text.byteSize text.toList) (before : Extractor)
    (path : String) :
    before.scan text path = ({
      declarations := [.ofConstruct construct ⟨0, Text.byteSize text.toList⟩ 1 none]
      imports := []
      exports := []
      path
      package := construct.packageName? }, ⟨.empty⟩) := by
  have hspan : Piece.span (.declaration construct (Token.lex text)) = ⟨0, Text.byteSize text.toList⟩ := by
    rw [Piece.span_eq (.declaration construct (Token.lex text)) hne, Span.mk.injEq]
    exact ⟨hstart, hstop⟩
  rw [scan_whole hrule, hspan, LineTable.lineOf_zero]
  rfl

/-- Every declaration is self-contained. -/
theorem declaration_selfContained (before : Extractor) (source path : String) (d : Declaration)
    (hd : d ∈ (before.scan source path).1.declarations) :
    ∃ text construct, d.span.slice? source = some text ∧
      construct.mapOffsets (· + d.span.start) = d.construct ∧
      Rule.complete? Construct.rule (Token.lex text) = some construct ∧
      construct.hasParameters = d.hasParameters ∧
      ∀ other : Extractor, other.scan text path = ({
        declarations := [.ofConstruct construct ⟨0, Text.byteSize text.toList⟩ 1 none]
        imports := []
        exports := []
        path
        package := construct.packageName? }, ⟨.empty⟩) := by
  obtain ⟨p, q, us, hq, hlex, hspan, hrule⟩ := Extractor.exists_tokens_of_mem hd
  obtain ⟨text, hne, hslice, htokens, hstart, hstop⟩ := Token.exists_lex_slice hq hlex
  -- Cut the tokens off behind the declaration first, then move them to where the slice has them.
  have hcut := Construct.rule_cut hrule
  rw [← htokens, Construct.rule_map] at hcut
  obtain ⟨⟨construct, rest⟩, hconstruct, hmoved⟩ := Option.map_eq_some_iff.mp hcut
  obtain ⟨hmove, hrest⟩ := Prod.mk.inj hmoved
  obtain rfl := List.map_eq_nil_iff.mp hrest
  rw [hspan]
  refine ⟨text, construct, hslice, hmove, ?_, ?_, ?_⟩
  · rw [complete?, hconstruct]
  · rw [Extractor.eq_ofConstruct_of_mem hd, Declaration.ofConstruct, ← hmove, Construct.hasParameters_mapOffsets]
  · exact fun other => Extractor.scan_of_rule hne hconstruct hstart hstop other path

/-- A documented function with a function inside, in front of one that is never closed. -/
theorem declaration_selfContained_nested :
    ∃ d ∈ (({} : Extractor).scan
        "/// f\nfunction f; function g; endfunction endfunction function h;" "").1.declarations,
      d.span = ⟨6, 53⟩ ∧ d.doc = some "\nf" ∧
      ∃ construct, construct.mapOffsets (· + 6) = d.construct ∧
        Rule.complete? Construct.rule (Token.lex "function f; function g; endfunction endfunction") =
          some construct := by
  have hfirst : (({} : Extractor).scan
      "/// f\nfunction f; function g; endfunction endfunction function h;" "").1.declarations.head?.map
      (fun d => (d.span, d.doc)) = some (⟨6, 53⟩, some "\nf") := by decide +kernel
  have hslice : Span.slice? ⟨6, 53⟩ "/// f\nfunction f; function g; endfunction endfunction function h;" =
      some "function f; function g; endfunction endfunction" := by decide +kernel
  obtain ⟨d, hd, heq⟩ := Option.map_eq_some_iff.mp hfirst
  obtain ⟨hspan, hdoc⟩ := Prod.mk.inj heq
  have hmem := List.mem_of_mem_head? hd
  obtain ⟨text, construct, htext, hmove, hcomplete, -⟩ := declaration_selfContained _ _ _ d hmem
  rw [hspan, hslice] at htext
  cases htext
  rw [hspan] at hmove
  exact ⟨d, hmem, hspan, hdoc, construct, hmove, hcomplete⟩

end BluespecDocs
