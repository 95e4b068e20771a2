import BluespecDocs.Proofs.Pieces
import Mathlib.Data.List.Pairwise

/-!
A document holds what reading its tokens from the left gives. Declarations, imports and exports are those of
the pieces, in their order; so their places start and end with tokens, do not overlap, and leave no token
outside at which a construct or a statement could be read.
-/

namespace BluespecDocs

open Rule

/-- The places of all that is recorded. -/
def Contents.spans (contents : Contents) : List Span :=
  contents.declarations.map (·.span) ++ (contents.imports.map (·.span) ++ contents.exports.map (·.span))

namespace Piece

/-- The construct, place and line of a declaration. -/
def declaration? (table : LineTable) : Piece → Option (Construct × Span × Nat)
  | declaration construct ts =>
    let span := (declaration construct ts).span
    some (construct, span, table.lineOf span.start)
  | _ => none

/-- The import that a piece is. -/
def import? : Piece → Option Import
  | statement (.ofImport found) _ => some found
  | _ => none

/-- The export that a piece is. -/
def export? : Piece → Option Export
  | statement (.ofExport found) _ => some found
  | _ => none

end Piece

/-- What it means for a document to be the leftmost search of a source text. -/
structure Document.IsLeftmost (source : String) (document : Document) : Prop where
  declarations_eq : document.declarations.map (fun d => (d.construct, d.span, d.line)) =
    (Piece.leftmost (Token.lex source)).filterMap (Piece.declaration? (LineTable.ofSource source))
  imports_eq : document.imports = (Piece.leftmost (Token.lex source)).filterMap Piece.import?
  exports_eq : document.exports = (Piece.leftmost (Token.lex source)).filterMap Piece.export?
  aligned : ∀ span ∈ document.spans, ∃ p q r, ∃ hq : q ≠ [], Token.lex source = p ++ (q ++ r) ∧
    span = ⟨(q.head hq).span.start, (q.getLast hq).span.stop⟩
  disjoint : document.spans.Pairwise Span.Disjoint
  declarations_ordered : document.declarations.Pairwise fun d e => d.span.stop ≤ e.span.start
  imports_ordered : document.imports.Pairwise fun i j => i.span.stop ≤ j.span.start
  exports_ordered : document.exports.Pairwise fun i j => i.span.stop ≤ j.span.start
  none_missed : ∀ p t rest, Token.lex source = p ++ t :: rest →
    (∀ span ∈ document.spans, span.Disjoint t.span) →
      Construct.rule (t :: rest) = none ∧ Statement.rule (t :: rest) = none
  package_eq : ∀ name, document.package = some name ↔ ∃ earlier d header later,
    document.declarations = earlier ++ d :: later ∧ d.construct = .ofPackage header ∧ header.name = name ∧
      ∀ e ∈ earlier, ∀ other, e.construct ≠ .ofPackage other

/-- The place that an import tells is that of the tokens it was read from. -/
theorem Import.span_of_rule {found : Import} {ts us : List Token} (h : rule ts = some (found, us)) :
    found.span = spanRead ts us := by
  obtain ⟨⟨package, span⟩, vs, hspan, hpure⟩ := bind_eq_some.mp h
  cases hpure
  exact (spanned_eq_some.mp hspan).2

/-- The place that an export tells is that of the tokens it was read from. -/
theorem Export.span_of_rule {found : Export} {ts us : List Token} (h : rule ts = some (found, us)) :
    found.span = spanRead ts us := by
  obtain ⟨⟨⟨name, withMembers⟩, span⟩, vs, hspan, hpure⟩ := bind_eq_some.mp h
  cases hpure
  exact (spanned_eq_some.mp hspan).2

namespace Statement

/-- The place of a statement. -/
def span : Statement → Span
  | ofImport found => found.span
  | ofExport found => found.span

theorem span_of_rule {found : Statement} {ts us : List Token} (h : rule ts = some (found, us)) :
    found.span = spanRead ts us := by
  rcases orElse_eq_some.mp h with h | ⟨-, h⟩
  · obtain ⟨found, hfound, rfl⟩ := wrap_eq_some.mp h
    exact Import.span_of_rule hfound
  · obtain ⟨found, hfound, rfl⟩ := wrap_eq_some.mp h
    exact Export.span_of_rule hfound

end Statement

namespace Piece

/-- The pieces that go to any list, list by list. -/
def recorded (ps : List Piece) : List Piece :=
  ofKind .declarations ps ++ (ofKind .imports ps ++ ofKind .exports ps)

theorem statement_span_of_mem_leftmost {found : Statement} {q ts : List Token}
    (h : statement found q ∈ leftmost ts) : found.span = (statement found q).span := by
  obtain ⟨p, us, -, hread⟩ := exists_of_mem_leftmost h
  rw [Statement.span_of_rule hread]
  exact spanRead_eq_span (statement found q) hread.tokens_ne_nil us

theorem pairwise_span {ps : List Piece} (hne : ∀ piece ∈ ps, tokens piece ≠ [])
    (h : Token.InOrder (ps.flatMap tokens)) : ps.Pairwise fun a b => a.span.stop ≤ b.span.start := by
  induction ps with
  | nil => exact List.Pairwise.nil
  | cons a ps ih =>
      rw [List.flatMap_cons] at h
      refine List.Pairwise.cons (fun b hb => ?_) (ih (fun b hb => hne b (List.mem_cons_of_mem a hb)) h.right)
      have ha := hne a List.mem_cons_self
      have hb' := hne b (List.mem_cons_of_mem a hb)
      rw [span_eq _ ha, span_eq _ hb']
      exact h.stop_le_start (List.getLast_mem ha) (List.mem_flatMap.mpr ⟨b, hb, List.head_mem hb'⟩)

theorem pairwise_leftmost {ts : List Token} (h : Token.InOrder ts) :
    (leftmost ts).Pairwise fun a b => a.span.stop ≤ b.span.start :=
  pairwise_span (fun _ hpiece => tokens_ne_nil_of_mem_leftmost hpiece) (by rwa [flatMap_tokens_leftmost])

theorem mem_recorded {piece : Piece} {ps : List Piece} :
    piece ∈ recorded ps ↔ piece ∈ ps ∧ piece.kind? ≠ none := by
  simp only [recorded, List.mem_append, mem_ofKind, ← and_or_left]
  refine and_congr_right fun _ => ?_
  rcases piece.kind? with _ | _ | _ | _ <;> decide

/-- Of recorded pieces no two overlap. -/
theorem pairwise_recorded {ps : List Piece} (h : ps.Pairwise fun a b => a.span.stop ≤ b.span.start) :
    (recorded ps).Pairwise fun a b => a.span.Disjoint b.span := by
  have hdisjoint : ps.Pairwise fun a b => a.span.Disjoint b.span := h.imp Or.inl
  have : Std.Symm fun a b : Piece => a.span.Disjoint b.span := ⟨fun _ _ => Or.symm⟩
  have hwithin (kind : RecordKind) : (ofKind kind ps).Pairwise fun a b => a.span.Disjoint b.span :=
    hdisjoint.filter _
  have hacross {kind kind' : RecordKind} (hne : kind ≠ kind') (a : Piece) (ha : a ∈ ofKind kind ps) (b : Piece)
      (hb : b ∈ ofKind kind' ps) : a.span.Disjoint b.span := by
    rw [mem_ofKind] at ha hb
    refine hdisjoint.forall ha.1 hb.1 ?_
    rintro rfl
    exact hne (Option.some.inj (ha.2.symm.trans hb.2))
  have hstatements := List.pairwise_append.mpr ⟨hwithin .imports, hwithin .exports, hacross (by decide)⟩
  refine List.pairwise_append.mpr ⟨hwithin .declarations, hstatements, fun a ha b hb => ?_⟩
  rcases List.mem_append.mp hb with hb | hb
  · exact hacross (by decide) a ha b hb
  · exact hacross (by decide) a ha b hb

theorem span_contains {piece : Piece} {t : Token} (h : Token.InOrder piece.tokens) (ht : t ∈ piece.tokens) :
    ¬ piece.span.Disjoint t.span := by
  have hne := List.ne_nil_of_mem ht
  have hstart := h.head_le_start hne ht
  have hstop := h.stop_le_getLast hne ht
  have ht := h.nonempty t ht
  rw [span_eq _ hne, Span.Disjoint]
  dsimp only
  omega

/-- Where a token of a list stands among the pieces of the list. -/
theorem exists_piece_at {p rest ts : List Token} {t : Token} (h : ts = p ++ t :: rest) :
    ∃ piece ∈ leftmost ts, ∃ m₁ m₂ us, piece.tokens = m₁ ++ t :: m₂ ∧ rest = m₂ ++ us ∧
      piece.ReadBefore us := by
  induction ts using leftmost_induction generalizing p with
  | nil => exact absurd h.symm (List.append_ne_nil_of_right_ne_nil _ (List.cons_ne_nil _ _))
  | piece first us hread ih =>
      rw [hread.leftmost_eq]
      rcases List.append_eq_append_iff.mp h with ⟨m, hp, hus⟩ | ⟨m, hfirst, hm⟩
      · obtain ⟨piece, hmem, hpiece⟩ := ih hus
        exact ⟨piece, List.mem_cons_of_mem first hmem, hpiece⟩
      · cases m with
        | nil =>
            obtain ⟨piece, hmem, hpiece⟩ := ih (p := []) hm.symm
            exact ⟨piece, List.mem_cons_of_mem first hmem, hpiece⟩
        | cons u m =>
            obtain ⟨rfl, rfl⟩ := List.cons.inj hm
            exact ⟨first, List.mem_cons_self, p, m, us, hfirst, rfl, hread⟩

end Piece

namespace Document

theorem digest_contents (table : LineTable) (pending : PendingDoc) (ps : List Piece) :
    (digest table pending ps).1.declarations.map (fun d => (d.construct, d.span, d.line)) =
        ps.filterMap (Piece.declaration? table) ∧
      (digest table pending ps).1.imports = ps.filterMap Piece.import? ∧
      (digest table pending ps).1.exports = ps.filterMap Piece.export? := by
  induction ps generalizing pending with
  | nil => exact ⟨rfl, rfl, rfl⟩
  | cons piece ps ih =>
      cases piece with
      | skipped t => exact ih (pending.pass t)
      | declaration construct q =>
          obtain ⟨hdeclarations, hothers⟩ := ih pending.clear
          exact ⟨congrArg _ hdeclarations, hothers⟩
      | statement found q =>
          obtain ⟨hdeclarations, himports, hexports⟩ := ih pending
          cases found with
          | ofImport found => exact ⟨hdeclarations, congrArg _ himports, hexports⟩
          | ofExport found => exact ⟨hdeclarations, himports, congrArg _ hexports⟩

theorem digest_statementSpans (table : LineTable) (pending : PendingDoc) {ps : List Piece}
    (hspan : ∀ found q, Piece.statement found q ∈ ps → found.span = (Piece.statement found q).span) :
    (digest table pending ps).1.imports.map (·.span) = (Piece.ofKind .imports ps).map Piece.span ∧
      (digest table pending ps).1.exports.map (·.span) = (Piece.ofKind .exports ps).map Piece.span := by
  induction ps generalizing pending with
  | nil => exact ⟨rfl, rfl⟩
  | cons piece ps ih =>
      have ih := fun pending => ih pending fun found q hmem => hspan found q (List.mem_cons_of_mem piece hmem)
      cases piece with
      | skipped t => exact ih (pending.pass t)
      | declaration construct q => exact ih pending.clear
      | statement found q =>
          obtain ⟨himports, hexports⟩ := ih pending
          have hfound := hspan found q List.mem_cons_self
          cases found with
          | ofImport found => exact ⟨congrArg₂ List.cons hfound himports, hexports⟩
          | ofExport found => exact ⟨himports, congrArg₂ List.cons hfound hexports⟩

end Document

theorem Construct.packageName_eq_some {construct : Construct} {name : Identifier} :
    construct.packageName? = some name ↔ ∃ header, construct = .ofPackage header ∧ header.name = name := by
  cases construct <;> simp [packageName?]

theorem Construct.packageName_eq_none {construct : Construct} :
    construct.packageName? = none ↔ ∀ header, construct ≠ .ofPackage header := by
  cases construct <;> simp [packageName?]

theorem Contents.package_eq_some {contents : Contents} {name : Identifier} :
    contents.package? = some name ↔ ∃ earlier d header later,
      contents.declarations = earlier ++ d :: later ∧ d.construct = .ofPackage header ∧ header.name = name ∧
        ∀ e ∈ earlier, ∀ other, e.construct ≠ .ofPackage other := by
  simp only [package?, List.findSome?_eq_some_iff, Construct.packageName_eq_some, Construct.packageName_eq_none]
  constructor
  · rintro ⟨earlier, d, later, hlist, ⟨header, hd, hname⟩, hearlier⟩
    exact ⟨earlier, d, header, later, hlist, hd, hname, hearlier⟩
  · rintro ⟨earlier, d, header, later, hlist, hd, hname, hearlier⟩
    exact ⟨earlier, d, later, hlist, ⟨header, hd, hname⟩, hearlier⟩

section Scan

variable (before : Extractor) (source path : String)

theorem Extractor.scan_spans_eq : (before.scan source path).1.spans =
    (Piece.recorded (Piece.leftmost (Token.lex source))).map Piece.span := by
  obtain ⟨himports, hexports⟩ := Document.digest_statementSpans (LineTable.ofSource source) .empty
    fun found q => Piece.statement_span_of_mem_leftmost
  rw [scan_eq, Contents.spans, Document.digest_declarationSpans, himports, hexports, Piece.recorded,
    List.map_append, List.map_append]

theorem Extractor.scan_aligned : ∀ span ∈ (before.scan source path).1.spans,
    ∃ p q r, ∃ hq : q ≠ [], Token.lex source = p ++ (q ++ r) ∧
      span = ⟨(q.head hq).span.start, (q.getLast hq).span.stop⟩ := by
  intro span hspan
  rw [scan_spans_eq] at hspan
  obtain ⟨piece, hmem, rfl⟩ := List.mem_map.mp hspan
  obtain ⟨p, us, hlex, hread⟩ := Piece.exists_of_mem_leftmost (Piece.mem_recorded.mp hmem).1
  exact ⟨p, piece.tokens, us, hread.tokens_ne_nil, hlex, Piece.span_eq _ hread.tokens_ne_nil⟩

theorem Extractor.scan_none_missed : ∀ p t rest, Token.lex source = p ++ t :: rest →
    (∀ span ∈ (before.scan source path).1.spans, span.Disjoint t.span) →
      Construct.rule (t :: rest) = none ∧ Statement.rule (t :: rest) = none := by
  intro p t rest hlex houtside
  obtain ⟨piece, hmem, m₁, m₂, us, htokens, rfl, hread⟩ := Piece.exists_piece_at hlex
  by_cases hkind : piece.kind? = none
  · obtain ⟨u, rfl⟩ := Piece.kind_eq_none.mp hkind
    rcases List.cons_eq_append_iff.mp htokens with ⟨rfl, hcons⟩ | ⟨m, -, hm⟩
    · cases hcons
      exact hread
    -- A skipped piece is one token, so nothing of it stands in front of that token.
    · exact absurd hm.symm (List.append_ne_nil_of_right_ne_nil _ (List.cons_ne_nil _ _))
  · have hspan : piece.span ∈ (before.scan source path).1.spans := by
      rw [scan_spans_eq]
      exact List.mem_map_of_mem (Piece.mem_recorded.mpr ⟨hmem, hkind⟩)
    obtain ⟨p', us', hlex', -⟩ := Piece.exists_of_mem_leftmost hmem
    have hinOrder := Token.lex_inOrder source
    rw [hlex'] at hinOrder
    have ht : t ∈ piece.tokens := htokens ▸ List.mem_append_right m₁ List.mem_cons_self
    exact absurd (houtside _ hspan) (Piece.span_contains hinOrder.right.left ht)

end Scan

/-- The document of a source text is what the leftmost search of its tokens finds. -/
theorem scan_isLeftmost (before : Extractor) (source path : String) :
    (before.scan source path).1.IsLeftmost source := by
  have hordered := Piece.pairwise_leftmost (Token.lex_inOrder source)
  obtain ⟨hdeclarations, himports, hexports⟩ :=
    Document.digest_contents (LineTable.ofSource source) .empty (Piece.leftmost (Token.lex source))
  have hdeclarationSpans := Document.digest_declarationSpans (LineTable.ofSource source) .empty
    (Piece.leftmost (Token.lex source))
  obtain ⟨himportSpans, hexportSpans⟩ := Document.digest_statementSpans (LineTable.ofSource source) .empty
    fun found q => Piece.statement_span_of_mem_leftmost
  have hpairwise (kind : RecordKind) : ((Piece.ofKind kind (Piece.leftmost (Token.lex source))).map
      Piece.span).Pairwise fun a b => a.stop ≤ b.start := List.pairwise_map.mpr (hordered.filter _)
  have hdisjoint : (before.scan source path).1.spans.Pairwise Span.Disjoint := by
    rw [Extractor.scan_spans_eq]
    exact List.pairwise_map.mpr (Piece.pairwise_recorded hordered)
  have haligned := Extractor.scan_aligned before source path
  have hmissed := Extractor.scan_none_missed before source path
  rw [Extractor.scan_eq] at hdisjoint haligned hmissed ⊢
  exact {
    declarations_eq := hdeclarations
    imports_eq := himports
    exports_eq := hexports
    aligned := haligned
    disjoint := hdisjoint
    declarations_ordered := List.pairwise_map.mp (hdeclarationSpans ▸ hpairwise .declarations)
    imports_ordered := List.pairwise_map.mp (himportSpans ▸ hpairwise .imports)
    exports_ordered := List.pairwise_map.mp (hexportSpans ▸ hpairwise .exports)
    none_missed := hmissed
    package_eq := fun name => Contents.package_eq_some }

end BluespecDocs
