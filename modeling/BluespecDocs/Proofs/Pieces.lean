import BluespecDocs.Document
import BluespecDocs.Proofs.TokenPlaces

/-!
The pieces of a token list. Reading from the left, a place where a declaration or a statement can be read
gives the tokens of it as one piece, and every other token is a piece of its own. The search of a document
goes through just these pieces, although it looks for a construct only behind a fitting word and finds its
way on by byte offsets.
-/

namespace BluespecDocs

open Rule

/-- A piece of a token list: a token where nothing can be read, or what a rule reads. -/
inductive Piece where
  | skipped (t : Token)
  | declaration (construct : Construct) (tokens : List Token)
  | statement (statement : Statement) (tokens : List Token)

namespace Piece

/-- The tokens of a piece. -/
def tokens : Piece → List Token
  | skipped t => [t]
  | declaration _ ts => ts
  | statement _ ts => ts

/-- The place of a piece, from its first to its last token. -/
def span (piece : Piece) : Span := spanRead piece.tokens []

/-- Reads from the left. Comments are skipped; at any other token a construct is read if there is one, and
otherwise a statement if there is one, and the reading goes on with the tokens left; where neither can be
read it goes on with the next token. -/
def leftmost : List Token → List Piece
  | [] => []
  | t :: rest =>
    if t.commentKind?.isSome then skipped t :: leftmost rest
    else match hconstruct : Construct.rule (t :: rest) with
      | some (construct, after) =>
        declaration construct ((t :: rest).take (rest.length + 1 - after.length)) :: leftmost after
      | none => match hstatement : Statement.rule (t :: rest) with
        | some (found, after) =>
          statement found ((t :: rest).take (rest.length + 1 - after.length)) :: leftmost after
        | none => skipped t :: leftmost rest
termination_by ts => ts.length
decreasing_by
  · exact Nat.lt_succ_self _
  · exact (Construct.rule_shrinks _ _ _ hconstruct).2
  · exact (Statement.rule_shrinks _ _ _ hstatement).2
  · exact Nat.lt_succ_self _

end Piece

namespace Rule

variable {α : Type} {words : List String} {r : Rule α} {t : Token} {rest : List Token}

theorem StartsWith.isOneOf (h : StartsWith words r) {found : α × List Token} (hr : r (t :: rest) = some found) :
    Document.isOneOf words t = true := by
  obtain ⟨t', us, hcons, word, hmem, hword⟩ := h _ _ hr
  cases hcons
  exact List.any_eq_true.mpr ⟨word, hmem, hword⟩

theorem StartsWith.commentKind_eq_none (h : StartsWith words r) {found : α × List Token}
    (hr : r (t :: rest) = some found) : t.commentKind? = none := by
  obtain ⟨t', us, hcons, word, -, hword⟩ := h _ _ hr
  cases hcons
  rw [Token.commentKind?, Token.kind_of_isWord hword]

theorem Shrinks.ne_nil (h : Shrinks r) {q us : List Token} {a : α} (hr : r (q ++ us) = some (a, us)) :
    q ≠ [] := by
  rintro rfl
  exact Nat.lt_irrefl _ (h _ _ _ hr).2

end Rule

theorem Construct.rule_eq_none_of_statement {ts : List Token} {found : Statement × List Token}
    (h : Statement.rule ts = some found) : Construct.rule ts = none :=
  Construct.rule_startsWith.eq_none Statement.rule_startsWith (by decide) h

namespace Piece

/-- The tokens read, counted off by the tokens left. -/
theorem take_read (t : Token) (q us : List Token) :
    (t :: (q ++ us)).take ((q ++ us).length + 1 - us.length) = t :: q := by
  have hlength : (q ++ us).length + 1 - us.length = (t :: q).length := by
    rw [List.length_append, List.length_cons]
    omega
  rw [hlength, ← List.cons_append, List.take_left]

theorem leftmost_declaration {construct : Construct} {q us : List Token}
    (h : Construct.rule (q ++ us) = some (construct, us)) :
    leftmost (q ++ us) = declaration construct q :: leftmost us := by
  obtain ⟨t, q, rfl⟩ := List.exists_cons_of_ne_nil (Construct.rule_shrinks.ne_nil h)
  rw [List.cons_append] at h ⊢
  rw [leftmost, Construct.rule_startsWith.commentKind_eq_none h, if_neg (by decide)]
  split
  · next found after hfound =>
      rw [h] at hfound
      cases hfound
      rw [take_read]
  · next hnone =>
      rw [h] at hnone
      cases hnone

theorem leftmost_whole {construct : Construct} {ts : List Token}
    (h : Construct.rule ts = some (construct, [])) : leftmost ts = [declaration construct ts] := by
  rw [← List.append_nil ts] at h
  have hpiece := leftmost_declaration h
  rwa [List.append_nil, leftmost] at hpiece

theorem leftmost_statement {found : Statement} {q us : List Token}
    (h : Statement.rule (q ++ us) = some (found, us)) :
    leftmost (q ++ us) = statement found q :: leftmost us := by
  obtain ⟨t, q, rfl⟩ := List.exists_cons_of_ne_nil (Statement.rule_shrinks.ne_nil h)
  have hconstruct := Construct.rule_eq_none_of_statement h
  rw [List.cons_append] at h hconstruct ⊢
  rw [leftmost, Statement.rule_startsWith.commentKind_eq_none h, if_neg (by decide)]
  split
  · next other =>
      rw [hconstruct] at other
      cases other
  · split
    · next other after hother =>
        rw [h] at hother
        cases hother
        rw [take_read]
    · next hnone =>
        rw [h] at hnone
        cases hnone

theorem leftmost_skipped {t : Token} {rest : List Token} (hconstruct : Construct.rule (t :: rest) = none)
    (hstatement : Statement.rule (t :: rest) = none) :
    leftmost (t :: rest) = skipped t :: leftmost rest := by
  rw [leftmost]
  split
  · rfl
  · split
    · next other =>
        rw [hconstruct] at other
        cases other
    · split
      · next other =>
          rw [hstatement] at other
          cases other
      · rfl

/-- How a piece comes about in front of the tokens `us`. -/
def ReadBefore (us : List Token) : Piece → Prop
  | skipped t => Construct.rule (t :: us) = none ∧ Statement.rule (t :: us) = none
  | declaration construct q => Construct.rule (q ++ us) = some (construct, us)
  | statement found q => Statement.rule (q ++ us) = some (found, us)

theorem ReadBefore.tokens_ne_nil {us : List Token} {piece : Piece} (h : piece.ReadBefore us) :
    piece.tokens ≠ [] := by
  cases piece with
  | skipped t => exact List.cons_ne_nil t []
  | declaration construct q => exact Construct.rule_shrinks.ne_nil h
  | statement found q => exact Statement.rule_shrinks.ne_nil h

theorem ReadBefore.leftmost_eq {us : List Token} {piece : Piece} (h : piece.ReadBefore us) :
    leftmost (piece.tokens ++ us) = piece :: leftmost us := by
  cases piece with
  | skipped t => exact leftmost_skipped h.1 h.2
  | declaration construct q => exact leftmost_declaration h
  | statement found q => exact leftmost_statement h

theorem exists_readBefore (t : Token) (rest : List Token) :
    ∃ piece us, t :: rest = tokens piece ++ us ∧ piece.ReadBefore us := by
  cases hconstruct : Construct.rule (t :: rest) with
  | some found =>
      obtain ⟨q, hq⟩ := (Construct.rule_shrinks _ _ _ hconstruct).1
      rw [← hq] at hconstruct
      exact ⟨declaration found.1 q, found.2, hq.symm, hconstruct⟩
  | none =>
      cases hstatement : Statement.rule (t :: rest) with
      | some found =>
          obtain ⟨q, hq⟩ := (Statement.rule_shrinks _ _ _ hstatement).1
          rw [← hq] at hstatement
          exact ⟨statement found.1 q, found.2, hq.symm, hstatement⟩
      | none => exact ⟨skipped t, rest, rfl, hconstruct, hstatement⟩

/-- Induction along the pieces of a token list. -/
theorem leftmost_induction {motive : List Token → Prop} (nil : motive [])
    (piece : ∀ piece us, ReadBefore us piece → motive us → motive (piece.tokens ++ us))
    (ts : List Token) : motive ts := by
  match ts with
  | [] => exact nil
  | t :: rest =>
      obtain ⟨first, us, hts, hread⟩ := exists_readBefore t rest
      have hlt : us.length < (t :: rest).length := by
        have := List.length_pos_iff.mpr hread.tokens_ne_nil
        rw [hts, List.length_append]
        omega
      rw [hts]
      exact piece first us hread (leftmost_induction nil piece us)
termination_by ts.length
decreasing_by exact hlt

/-- The pieces of a token list make up the list. -/
theorem flatMap_tokens_leftmost (ts : List Token) : (leftmost ts).flatMap tokens = ts := by
  induction ts using leftmost_induction with
  | nil =>
      rw [leftmost]
      rfl
  | piece piece us hread ih => rw [hread.leftmost_eq, List.flatMap_cons, ih]

theorem readBefore_of_leftmost {ts : List Token} {ps₁ ps₂ : List Piece} {piece : Piece}
    (h : leftmost ts = ps₁ ++ piece :: ps₂) : piece.ReadBefore (ps₂.flatMap tokens) := by
  induction ts using leftmost_induction generalizing ps₁ with
  | nil =>
      rw [leftmost] at h
      exact absurd h.symm (List.append_ne_nil_of_right_ne_nil _ (List.cons_ne_nil _ _))
  | piece first us hread ih =>
      rw [hread.leftmost_eq] at h
      rcases List.cons_eq_append_iff.mp h with ⟨-, hcons⟩ | ⟨ps, -, hps⟩
      · cases hcons
        rwa [flatMap_tokens_leftmost]
      · exact ih hps

/-- A piece of a token list with the tokens around it. -/
theorem exists_of_mem_leftmost {piece : Piece} {ts : List Token} (h : piece ∈ leftmost ts) :
    ∃ p us, ts = p ++ (piece.tokens ++ us) ∧ piece.ReadBefore us := by
  obtain ⟨ps₁, ps₂, hps⟩ := List.append_of_mem h
  refine ⟨ps₁.flatMap tokens, ps₂.flatMap tokens, ?_, readBefore_of_leftmost hps⟩
  rw [← List.flatMap_cons, ← List.flatMap_append, ← hps, flatMap_tokens_leftmost]

theorem tokens_ne_nil_of_mem_leftmost {piece : Piece} {ts : List Token} (h : piece ∈ leftmost ts) :
    piece.tokens ≠ [] := by
  obtain ⟨p, us, -, hread⟩ := exists_of_mem_leftmost h
  exact hread.tokens_ne_nil

theorem span_eq (piece : Piece) (h : piece.tokens ≠ []) :
    piece.span = ⟨(piece.tokens.head h).span.start, (piece.tokens.getLast h).span.stop⟩ := by
  have hspan := spanRead_append h []
  rwa [List.append_nil] at hspan

theorem spanRead_eq_span (piece : Piece) (h : piece.tokens ≠ []) (us : List Token) :
    spanRead (piece.tokens ++ us) us = piece.span := spanRead_append_nil h us

end Piece

/-- The three lists of a document. -/
inductive RecordKind where
  | declarations | imports | exports
deriving DecidableEq

namespace Piece

/-- The list that a piece goes to. -/
def kind? : Piece → Option RecordKind
  | skipped _ => none
  | declaration _ _ => some .declarations
  | statement (.ofImport _) _ => some .imports
  | statement (.ofExport _) _ => some .exports

theorem kind_eq_none {piece : Piece} : piece.kind? = none ↔ ∃ t, piece = skipped t := by
  rcases piece with t | ⟨construct, q⟩ | ⟨found | found, q⟩ <;> simp [kind?]

/-- The pieces that go to one list. -/
def ofKind (kind : RecordKind) (ps : List Piece) : List Piece := ps.filter fun piece => piece.kind? == some kind

theorem mem_ofKind {kind : RecordKind} {piece : Piece} {ps : List Piece} :
    piece ∈ ofKind kind ps ↔ piece ∈ ps ∧ piece.kind? = some kind := by
  rw [ofKind, List.mem_filter, beq_iff_eq]

end Piece

namespace PendingDoc

/-- What waits behind a token. -/
def pass (pending : PendingDoc) (t : Token) : PendingDoc :=
  match t.commentKind? with
  | some kind => pending.observe kind t.text
  | none => pending

/-- What waits behind a piece. -/
def behind (pending : PendingDoc) : Piece → PendingDoc
  | .skipped t => pending.pass t
  | .declaration _ _ => pending.clear
  | .statement _ _ => pending

end PendingDoc

theorem Contents.package_singleton (d : Declaration) :
    Contents.package? { declarations := [d] } = d.construct.packageName? := by
  rw [Contents.package?, List.findSome?_singleton]

namespace Document

/-- What a search makes of the pieces of a token list, while `pending` waits for a declaration. -/
def digest (table : LineTable) (pending : PendingDoc) : List Piece → Contents × PendingDoc
  | [] => ({}, pending)
  | .skipped t :: ps => digest table (pending.pass t) ps
  | .declaration construct ts :: ps =>
    let span := Piece.span (.declaration construct ts)
    let (contents, left) := digest table pending.clear ps
    (contents.addDeclaration (.ofConstruct construct span (table.lineOf span.start) pending.taken?), left)
  | .statement found _ :: ps =>
    let (contents, left) := digest table pending ps
    (contents.addStatement found, left)

theorem digest_pending (table : LineTable) (pending : PendingDoc) (ps : List Piece) :
    (digest table pending ps).2 = ps.foldl PendingDoc.behind pending := by
  induction ps generalizing pending with
  | nil => rfl
  | cons piece ps ih => cases piece <;> exact ih _

theorem digest_declarationSpans (table : LineTable) (pending : PendingDoc) (ps : List Piece) :
    (digest table pending ps).1.declarations.map (·.span) = (Piece.ofKind .declarations ps).map Piece.span := by
  induction ps generalizing pending with
  | nil => rfl
  | cons piece ps ih =>
      cases piece with
      | skipped t => exact ih _
      | declaration construct q => exact congrArg _ (ih _)
      | statement found q => cases found <;> exact ih _

/-- A declaration of a document is a piece, documented by what waits behind the pieces before it. -/
theorem exists_piece_of_digest {table : LineTable} {pending : PendingDoc} {ps : List Piece}
    {earlier later : List Declaration} {d : Declaration}
    (h : (digest table pending ps).1.declarations = earlier ++ d :: later) :
    ∃ ps₁ q ps₂, ps = ps₁ ++ .declaration d.construct q :: ps₂ ∧
      earlier.map (·.span) = (Piece.ofKind .declarations ps₁).map Piece.span ∧
      d.span = (Piece.declaration d.construct q).span ∧
      d.doc = (ps₁.foldl PendingDoc.behind pending).taken? := by
  induction ps generalizing pending earlier with
  | nil => exact absurd h.symm (List.append_ne_nil_of_right_ne_nil _ (List.cons_ne_nil _ _))
  | cons piece ps ih =>
      cases piece with
      | skipped t =>
          obtain ⟨ps₁, q, ps₂, rfl, hearlier, hspan, hdoc⟩ := ih h
          exact ⟨.skipped t :: ps₁, q, ps₂, rfl, hearlier, hspan, hdoc⟩
      | statement found q =>
          have h : (digest table pending ps).1.declarations = earlier ++ d :: later := by
            cases found <;> exact h
          obtain ⟨ps₁, q', ps₂, rfl, hearlier, hspan, hdoc⟩ := ih h
          refine ⟨.statement found q :: ps₁, q', ps₂, rfl, ?_, hspan, hdoc⟩
          cases found <;> exact hearlier
      | declaration construct q =>
          cases earlier with
          | nil =>
              obtain ⟨rfl, -⟩ := List.cons.inj h
              exact ⟨[], q, ps, rfl, rfl, rfl, rfl⟩
          | cons e earlier =>
              obtain ⟨rfl, hrest⟩ := List.cons.inj h
              obtain ⟨ps₁, q', ps₂, rfl, hearlier, hspan, hdoc⟩ := ih hrest
              exact ⟨.declaration construct q :: ps₁, q', ps₂, rfl, congrArg _ hearlier, hspan, hdoc⟩

/-- All of a declaration but its place and its documentation depends on its construct and its place alone. -/
theorem eq_ofConstruct_of_mem_digest {table : LineTable} {pending : PendingDoc} {ps : List Piece} {d : Declaration}
    (h : d ∈ (digest table pending ps).1.declarations) :
    d = .ofConstruct d.construct d.span (table.lineOf d.span.start) d.doc := by
  induction ps generalizing pending with
  | nil => cases h
  | cons piece ps ih =>
      cases piece with
      | skipped t => exact ih h
      | statement found q => cases found <;> exact ih h
      | declaration construct q =>
          rcases List.mem_cons.mp h with rfl | h
          · rfl
          · exact ih h

/-- The tokens behind the span of what a rule reads are the tokens it leaves. -/
theorem behind_spanRead {t : Token} {q us : List Token} (h : Token.InOrder (t :: q ++ us)) :
    behind (spanRead (t :: q ++ us) us) (q ++ us) = us := by
  have hq : t :: q ≠ [] := List.cons_ne_nil t q
  rw [behind, spanRead_append hq, List.dropWhile_append_of_pos]
  · cases us with
    | nil => rfl
    | cons u us =>
        have hapart := h.stop_le_start (List.getLast_mem hq) List.mem_cons_self
        have hu := h.right.nonempty u List.mem_cons_self
        rw [List.dropWhile_cons_of_neg]
        rw [decide_eq_true_eq, Nat.not_le]
        exact Nat.lt_of_le_of_lt hapart hu
  · intro u hu
    exact decide_eq_true (h.left.stop_le_getLast hq (List.mem_cons_of_mem t hu))

theorem isOneOf_eq_false {words words' : List String} {t : Token} (h : isOneOf words t = true)
    (hdisjoint : ∀ word ∈ words, word ∉ words') : isOneOf words' t = false := by
  obtain ⟨word, hmem, hword⟩ := List.any_eq_true.mp h
  refine List.any_eq_false.mpr fun word' hmem' hword' => ?_
  exact hdisjoint word hmem (Token.eq_of_isWord hword hword' ▸ hmem')

section Step

variable (table : LineTable) (pending : PendingDoc) {q us : List Token}

theorem search_declaration {construct : Construct} (h : Token.InOrder (q ++ us))
    (hrule : Construct.rule (q ++ us) = some (construct, us)) :
    search table pending (q ++ us) =
      (let span := Piece.span (.declaration construct q)
      let found := Declaration.ofConstruct construct span (table.lineOf span.start) pending.taken?
      let (contents, left) := search table pending.clear us
      (contents.addDeclaration found, left)) := by
  obtain ⟨t, q, rfl⟩ := List.exists_cons_of_ne_nil (Construct.rule_shrinks.ne_nil hrule)
  have hspan := Piece.spanRead_eq_span (.declaration construct (t :: q)) (List.cons_ne_nil t q) us
  have hbehind := behind_spanRead h
  have hword := Construct.rule_startsWith.isOneOf hrule
  rw [← hspan, Piece.tokens, List.cons_append]
  rw [List.cons_append] at hrule hbehind
  rw [search, Construct.rule_startsWith.commentKind_eq_none hrule]
  dsimp only
  rw [if_pos hword, spanned_eq_some.mpr ⟨hrule, rfl⟩]
  dsimp only
  rw [hbehind]

theorem search_statement {found : Statement} (h : Token.InOrder (q ++ us))
    (hrule : Statement.rule (q ++ us) = some (found, us)) :
    search table pending (q ++ us) =
      (let (contents, left) := search table pending us
      (contents.addStatement found, left)) := by
  obtain ⟨t, q, rfl⟩ := List.exists_cons_of_ne_nil (Statement.rule_shrinks.ne_nil hrule)
  have hbehind := behind_spanRead h
  have hword : isOneOf Statement.keywords t = true := Statement.rule_startsWith.isOneOf hrule
  have hother : isOneOf Construct.keywords t = false := isOneOf_eq_false hword (by decide)
  rw [List.cons_append] at hrule hbehind ⊢
  rw [search, Statement.rule_startsWith.commentKind_eq_none hrule]
  dsimp only
  rw [if_neg (by rw [hother]; decide), if_pos hword, spanned_eq_some.mpr ⟨hrule, rfl⟩]
  dsimp only
  rw [hbehind]

theorem search_skipped {t : Token} {rest : List Token} (hconstruct : Construct.rule (t :: rest) = none)
    (hstatement : Statement.rule (t :: rest) = none) :
    search table pending (t :: rest) = search table (pending.pass t) rest := by
  rw [search, PendingDoc.pass, spanned_eq_none.mpr hconstruct, spanned_eq_none.mpr hstatement]
  cases t.commentKind? with
  | some kind => rfl
  | none =>
      dsimp only
      rw [ite_self, ite_self]

end Step

/-- The search of a token list goes through its pieces. -/
theorem search_eq_digest (table : LineTable) (pending : PendingDoc) {ts : List Token} (h : Token.InOrder ts) :
    search table pending ts = digest table pending (Piece.leftmost ts) := by
  induction ts using Piece.leftmost_induction generalizing pending with
  | nil => rw [search, Piece.leftmost, digest]
  | piece piece us hread ih =>
      rw [hread.leftmost_eq]
      cases piece with
      | declaration construct q =>
          exact (search_declaration table pending h hread).trans (by rw [ih _ h.right, digest]; rfl)
      | statement found q =>
          exact (search_statement table pending h hread).trans (by rw [ih _ h.right, digest])
      | skipped t =>
          exact (search_skipped table pending hread.1 hread.2).trans (by rw [ih _ h.right, digest])

end Document

/-- A document is made from the pieces of its tokens, whatever text was searched before. -/
theorem Extractor.scan_eq (before : Extractor) (source path : String) :
    before.scan source path =
      (let found := Document.digest (LineTable.ofSource source) .empty (Piece.leftmost (Token.lex source))
      ({ found.1 with path, package := found.1.package? }, ⟨found.2⟩)) := by
  rw [scan, Document.search_eq_digest _ _ (Token.lex_inOrder source)]
  rfl

theorem Extractor.eq_ofConstruct_of_mem {before : Extractor} {source path : String} {d : Declaration}
    (h : d ∈ (before.scan source path).1.declarations) :
    d = .ofConstruct d.construct d.span ((LineTable.ofSource source).lineOf d.span.start) d.doc := by
  rw [scan_eq] at h
  exact Document.eq_ofConstruct_of_mem_digest h

/-- The document of a text with just one declaration. -/
def Document.single (path : String) (d : Declaration) : Document where
  declarations := [d]
  imports := []
  exports := []
  path := path
  package := d.construct.packageName?

/-- A text whose tokens are one construct is a document with just that construct. -/
theorem Extractor.scan_whole {text : String} {construct : Construct}
    (hrule : Construct.rule (Token.lex text) = some (construct, [])) (before : Extractor) (path : String) :
    let span := Piece.span (.declaration construct (Token.lex text))
    before.scan text path =
      (.single path (.ofConstruct construct span ((LineTable.ofSource text).lineOf span.start) none), ⟨.empty⟩) := by
  rw [scan_eq, Piece.leftmost_whole hrule]
  exact congrArg (fun package => (Document.mk _ path package, Extractor.mk .empty)) (Contents.package_singleton _)

end BluespecDocs
