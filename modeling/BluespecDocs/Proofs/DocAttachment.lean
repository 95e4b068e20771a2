import BluespecDocs.Proofs.Headers
import BluespecDocs.Proofs.Pieces
import Mathlib.Data.List.Induction

/-!
Which documentation goes where. A comment is free if it lies outside all declarations that are found. A
declaration is documented by the free documentation comments between it and the declaration before, as far
as they stand behind the last free ordinary comment; what stands so behind the last declaration is left
over. Nothing else has a say: neither comments inside declarations, nor statements, nor tokens passed over,
nor what was searched before.
-/

namespace BluespecDocs

open Rule

namespace Token

/-- Whether a token is a comment that documents what follows. -/
def isDoc (t : Token) : Bool := t.commentKind?.any CommentKind.isDoc

/-- Whether a token is a comment that documents nothing. -/
def isOrdinary (t : Token) : Bool := t.commentKind?.any fun kind => !kind.isDoc

/-- The body of a comment, as the source text has it at the place of the comment. -/
def bodyIn (source : String) (t : Token) : String :=
  match t.commentKind?, t.span.slice? source with
  | some kind, some text => kind.body text
  | _, _ => ""

end Token

namespace Document

/-- Whether a token lies outside all of some spans. -/
def IsFree (spans : List Span) (t : Token) : Prop := ∀ span ∈ spans, span.Disjoint t.span

instance (spans : List Span) (t : Token) : Decidable (IsFree spans t) :=
  inferInstanceAs (Decidable (∀ span ∈ spans, span.Disjoint t.span))

/-- Whether a token is a free ordinary comment before an offset. -/
def Resets (spans : List Span) (high : Nat) (u : Token) : Prop :=
  u.isOrdinary = true ∧ IsFree spans u ∧ u.span.stop ≤ high

instance (spans : List Span) (high : Nat) : DecidablePred (Resets spans high) :=
  fun _ => inferInstanceAs (Decidable (_ ∧ _ ∧ _))

/-- Whether a token is a free documentation comment between two offsets, behind all free ordinary comments
before the second offset. -/
def Awaits (spans : List Span) (tokens : List Token) (low high : Nat) (t : Token) : Prop :=
  (t.isDoc = true ∧ IsFree spans t ∧ low ≤ t.span.start ∧ t.span.stop ≤ high) ∧
    ∀ u ∈ tokens, Resets spans high u → u.span.stop ≤ t.span.start

instance (spans : List Span) (tokens : List Token) (low high : Nat) :
    DecidablePred (Awaits spans tokens low high) :=
  fun _ => inferInstanceAs (Decidable ((_ ∧ _ ∧ _ ∧ _) ∧ _))

/-- The documentation comments that await a declaration at the offset `high`, if the declaration before ends
at `low`. -/
def awaiting (spans : List Span) (tokens : List Token) (low high : Nat) : List Token :=
  tokens.filter fun t => Awaits spans tokens low high t

/-- Where the last of some spans ends, or the start of the text. -/
def lastStop (spans : List Span) : Nat := (spans.getLast?.map Span.stop).getD 0

/-- The bodies of comments, each after a newline. -/
def docText (source : String) (comments : List Token) : String :=
  String.join (comments.map fun t => "\n" ++ t.bodyIn source)

end Document

namespace Token

/-- Whether a token is no comment. -/
def isNoComment (t : Token) : Bool := t.commentKind?.isNone

theorem isNoComment_of_isTypePart {t : Token} (h : t.isTypePart = true) : t.isNoComment = true := by
  rw [isNoComment, commentKind?]
  split
  · next kind hkind =>
      rw [isTypePart, hkind] at h
      cases h
  · rfl

theorem isNoComment_of_isMark {m : Mark} {t : Token} (h : t.isMark m = true) : t.isNoComment = true := by
  rw [isNoComment, commentKind?, kind_of_isMark h]
  rfl

end Token

section ReadOver

variable {α : Type} {inside : Token → Bool} {ts : List Token}

theorem Rule.spanned_readOver {r : Rule α} (h : Parallel (ReadOver inside ts) (ReadOver inside ts) Eq r r) :
    Parallel (ReadOver inside ts) (ReadOver inside ts) Eq (spanned r) (spanned r) := by
  rintro vs _ ⟨rfl, hvs⟩
  rcases h.cases ⟨rfl, hvs⟩ with ⟨hnone, -⟩ | ⟨a, us, b, us', hr, -, -, hus⟩
  · rw [spanned_eq_none.mpr hnone]
    exact .none
  · rw [spanned_eq_some.mpr ⟨hr, rfl⟩]
    exact .some ⟨rfl, rfl, hus.2⟩

theorem Import.rule_readOver :
    Parallel (ReadOver Token.isNoComment ts) (ReadOver Token.isNoComment ts) Eq rule rule := by
  have h := lockstep_readOver Token.isNoComment ts
  have htype := h.mono fun _ => Token.isNoComment_of_isTypePart
  have hmark (m : Mark) := parallel_mark h m fun _ => Token.isNoComment_of_isMark
  refine (spanned_readOver ?_).bind_eq fun _ => parallel_pure rfl
  exact (typePart_keyword_parallel htype _).bind_eq fun _ => (Identifier.capitalized_parallel htype).bind_eq
    fun _ => (hmark _).bind_eq fun _ => (hmark _).bind_eq fun _ => (hmark _).bind_eq fun _ => parallel_pure rfl

theorem Export.rule_readOver :
    Parallel (ReadOver Token.isNoComment ts) (ReadOver Token.isNoComment ts) Eq rule rule := by
  have h := lockstep_readOver Token.isNoComment ts
  have htype := h.mono fun _ => Token.isNoComment_of_isTypePart
  have hmark (m : Mark) := parallel_mark h m fun _ => Token.isNoComment_of_isMark
  have hmembers : Parallel (ReadOver Token.isNoComment ts) (ReadOver Token.isNoComment ts) Eq members members :=
    (hmark _).bind_eq fun _ => (hmark _).bind_eq fun _ => (hmark _).bind_eq fun _ => parallel_pure rfl
  refine (spanned_readOver ?_).bind_eq fun _ => parallel_pure rfl
  exact (typePart_keyword_parallel htype _).bind_eq fun _ => (Identifier.any_parallel htype).bind_eq fun _ =>
    hmembers.optional.bind_eq fun _ => (hmark _).bind_eq fun _ => parallel_pure rfl

/-- A statement is read without a comment in it. -/
theorem Statement.commentKind_eq_none_of_rule {found : Statement} {q us : List Token}
    (h : rule (q ++ us) = some (found, us)) {t : Token} (ht : t ∈ q) : t.commentKind? = none := by
  have hparallel : Parallel (ReadOver Token.isNoComment (q ++ us)) (ReadOver Token.isNoComment (q ++ us)) Eq
      rule rule :=
    (Import.rule_readOver.bind_eq fun _ => parallel_pure rfl).orElse
      (Export.rule_readOver.bind_eq fun _ => parallel_pure rfl)
  have hstart : ReadOver Token.isNoComment (q ++ us) (q ++ us) (q ++ us) :=
    ⟨rfl, [], rfl, fun _ hmem => absurd hmem (List.not_mem_nil)⟩
  rcases hparallel.cases hstart with ⟨hnone, -⟩ | ⟨a, vs, b, vs', ha, -, -, -, p, hp, hinside⟩
  · rw [h] at hnone
    cases hnone
  · rw [h] at ha
    cases ha
    rw [← List.append_cancel_right hp] at hinside
    exact Option.isNone_iff_eq_none.mp (hinside t ht)

end ReadOver

namespace Token

theorem isOrdinary_eq_false_of_isDoc {t : Token} (h : t.isDoc = true) : t.isOrdinary = false := by
  rw [isDoc] at h
  rw [isOrdinary]
  cases hkind : t.commentKind? with
  | none => rfl
  | some kind =>
      rw [hkind, Option.any_some] at h
      rw [Option.any_some, h]
      rfl

theorem isDoc_eq_false_of_isOrdinary {t : Token} (h : t.isOrdinary = true) : t.isDoc = false := by
  cases hdoc : t.isDoc with
  | false => rfl
  | true =>
      rw [isOrdinary_eq_false_of_isDoc hdoc] at h
      cases h

theorem isDoc_eq_false_of_none {t : Token} (h : t.commentKind? = none) : t.isDoc = false := by
  rw [isDoc, h]
  rfl

theorem isOrdinary_eq_false_of_none {t : Token} (h : t.commentKind? = none) : t.isOrdinary = false := by
  rw [isOrdinary, h]
  rfl

theorem commentKind_eq_none {t : Token} (hdoc : ¬ t.isDoc = true) (hordinary : ¬ t.isOrdinary = true) :
    t.commentKind? = none := by
  rw [isDoc] at hdoc
  rw [isOrdinary] at hordinary
  cases hkind : t.commentKind? with
  | none => rfl
  | some kind =>
      rw [hkind, Option.any_some] at hdoc hordinary
      rw [Bool.not_eq_true] at hdoc
      exact absurd (by rw [hdoc]; rfl) hordinary

end Token

namespace Document

variable {S S' : List Span} {T q : List Token} {t : Token} {low high : Nat}

theorem awaits_append : Awaits S (T ++ q) low high t ↔
    Awaits S T low high t ∧ ∀ u ∈ q, Resets S high u → u.span.stop ≤ t.span.start := by
  rw [Awaits, Awaits, List.forall_mem_append]
  exact and_assoc.symm

theorem awaiting_append : awaiting S (T ++ q) low high =
    (T.filter fun t => Awaits S (T ++ q) low high t) ++ q.filter fun t => Awaits S (T ++ q) low high t :=
  List.filter_append T q

/-- Tokens that are no comments or end behind `high` change nothing. -/
theorem awaiting_append_of_forall (h : ∀ t ∈ q, t.commentKind? = none ∨ high < t.span.stop) :
    awaiting S (T ++ q) low high = awaiting S T low high := by
  have hresets (u : Token) (hu : u ∈ q) : ¬ Resets S high u := by
    rintro ⟨hordinary, -, hle⟩
    rcases h u hu with hnone | hlt
    · rw [Token.isOrdinary_eq_false_of_none hnone] at hordinary
      cases hordinary
    · omega
  have hawaits (u : Token) (hu : u ∈ q) : ¬ Awaits S (T ++ q) low high u := by
    rintro ⟨⟨hdoc, -, -, hle⟩, -⟩
    rcases h u hu with hnone | hlt
    · rw [Token.isDoc_eq_false_of_none hnone] at hdoc
      cases hdoc
    · omega
  have hsame (t : Token) : Awaits S (T ++ q) low high t ↔ Awaits S T low high t := by
    rw [awaits_append, and_iff_left]
    exact fun u hu hreset => absurd hreset (hresets u hu)
  have hnil : (q.filter fun t => Awaits S (T ++ q) low high t) = [] :=
    List.filter_eq_nil_iff.mpr fun u hu => by simpa using hawaits u hu
  rw [awaiting_append, hnil, List.append_nil, awaiting]
  simp only [hsame]

/-- A free documentation comment is added to those that wait. -/
theorem awaiting_append_doc (h : Token.InOrder (T ++ [t])) (hdoc : t.isDoc = true) (hfree : IsFree S t)
    (hlow : low ≤ t.span.start) (hhigh : t.span.stop ≤ high) :
    awaiting S (T ++ [t]) low high = awaiting S T low high ++ [t] := by
  have hresets : ¬ Resets S high t := by
    rintro ⟨hordinary, -⟩
    rw [Token.isOrdinary_eq_false_of_isDoc hdoc] at hordinary
    cases hordinary
  have hsame (s : Token) : Awaits S (T ++ [t]) low high s ↔ Awaits S T low high s := by
    rw [awaits_append, and_iff_left]
    intro u hu hreset
    rw [List.mem_singleton.mp hu] at hreset
    exact absurd hreset hresets
  have ht : Awaits S T low high t :=
    ⟨⟨hdoc, hfree, hlow, hhigh⟩, fun u hu _ => h.stop_le_start hu (List.mem_singleton_self t)⟩
  have hself : ([t].filter fun s => Awaits S T low high s) = [t] := List.filter_eq_self.mpr (by simpa using ht)
  rw [awaiting_append, awaiting]
  simp only [hsame, hself]

/-- Behind a free ordinary comment nothing waits. -/
theorem awaiting_append_ordinary (h : Token.InOrder (T ++ [t])) (hordinary : t.isOrdinary = true)
    (hfree : IsFree S t) (hhigh : t.span.stop ≤ high) : awaiting S (T ++ [t]) low high = [] := by
  refine List.filter_eq_nil_iff.mpr fun s hs hawaits => ?_
  obtain ⟨⟨hdoc, -⟩, hbehind⟩ := of_decide_eq_true hawaits
  rcases List.mem_append.mp hs with hs | hs
  · have hstop := hbehind t (List.mem_append_right T (List.mem_singleton_self t)) ⟨hordinary, hfree, hhigh⟩
    have hstart := h.stop_le_start hs (List.mem_singleton_self t)
    have hs := h.left.nonempty s hs
    have ht := h.right.nonempty t (List.mem_singleton_self t)
    omega
  · rw [List.mem_singleton.mp hs, Token.isDoc_eq_false_of_isOrdinary hordinary] at hdoc
    cases hdoc

theorem awaiting_eq_nil (h : ∀ t ∈ T, t.span.start < low) : awaiting S T low high = [] := by
  refine List.filter_eq_nil_iff.mpr fun t ht hawaits => ?_
  obtain ⟨⟨-, -, hlow, -⟩, -⟩ := of_decide_eq_true hawaits
  exact absurd (h t ht) (Nat.not_lt.mpr hlow)

/-- Spans that overlap none of the tokens change nothing. -/
theorem awaiting_append_spans (h : ∀ t ∈ T, IsFree S' t) :
    awaiting (S ++ S') T low high = awaiting S T low high := by
  have hfree (t : Token) (ht : t ∈ T) : IsFree (S ++ S') t ↔ IsFree S t := by
    rw [IsFree, List.forall_mem_append]
    exact and_iff_left (h t ht)
  have hbehind (t : Token) : (∀ u ∈ T, Resets (S ++ S') high u → u.span.stop ≤ t.span.start) ↔
      ∀ u ∈ T, Resets S high u → u.span.stop ≤ t.span.start :=
    forall₂_congr fun u hu => by rw [Resets, Resets, hfree u hu]
  refine List.filter_congr fun t ht => decide_eq_decide.mpr ?_
  rw [Awaits, Awaits, hfree t ht, hbehind]

theorem lastStop_le {n : Nat} (h : ∀ span ∈ S, span.stop ≤ n) : lastStop S ≤ n := by
  rw [lastStop]
  cases hlast : S.getLast? with
  | none => exact Nat.zero_le n
  | some span => exact h span (List.mem_of_getLast? hlast)

theorem lastStop_concat (span : Span) : lastStop (S ++ [span]) = span.stop := by
  rw [lastStop, List.getLast?_concat]
  rfl

end Document

namespace Piece

/-- The documentation comments that wait behind a piece, given those that wait before it. -/
def waitingBehind (waiting : List Token) : Piece → List Token
  | skipped t => if t.isDoc then waiting ++ [t] else if t.isOrdinary then [] else waiting
  | declaration _ _ => []
  | statement _ _ => waiting

/-- The documentation comments that wait behind some pieces. -/
def waiting (ps : List Piece) : List Token := ps.foldl waitingBehind []

theorem waiting_concat (ps : List Piece) (piece : Piece) :
    waiting (ps ++ [piece]) = waitingBehind (waiting ps) piece := by
  rw [waiting, List.foldl_append]
  rfl

/-- Pieces in order, none of them empty, and no comments in statements. -/
structure WellRead (ps : List Piece) : Prop where
  inOrder : Token.InOrder (ps.flatMap tokens)
  tokens_ne_nil : ∀ piece ∈ ps, tokens piece ≠ []
  no_comment : ∀ found q, statement found q ∈ ps → ∀ t ∈ q, t.commentKind? = none

theorem WellRead.left {ps₁ ps₂ : List Piece} (h : WellRead (ps₁ ++ ps₂)) : WellRead ps₁ where
  inOrder := by
    have := h.inOrder
    rw [List.flatMap_append] at this
    exact this.left
  tokens_ne_nil piece hmem := h.tokens_ne_nil piece (List.mem_append_left ps₂ hmem)
  no_comment found q hmem := h.no_comment found q (List.mem_append_left ps₂ hmem)

/-- Declarations end before all tokens of later pieces. -/
theorem WellRead.span_stop_le {ps₁ ps₂ : List Piece} (h : WellRead (ps₁ ++ ps₂)) {span : Span}
    (hspan : span ∈ (ofKind .declarations ps₁).map Piece.span) {t : Token} (ht : t ∈ ps₂.flatMap tokens) :
    span.stop ≤ t.span.start := by
  obtain ⟨piece, hmem, rfl⟩ := List.mem_map.mp hspan
  have hmem := (mem_ofKind.mp hmem).1
  have hne := h.left.tokens_ne_nil piece hmem
  have hinOrder := h.inOrder
  rw [List.flatMap_append] at hinOrder
  rw [span_eq _ hne]
  exact hinOrder.stop_le_start (List.mem_flatMap.mpr ⟨piece, hmem, List.getLast_mem hne⟩) ht

theorem ofKind_append (kind : RecordKind) (ps₁ ps₂ : List Piece) :
    ofKind kind (ps₁ ++ ps₂) = ofKind kind ps₁ ++ ofKind kind ps₂ :=
  List.filter_append ps₁ ps₂

open Document

/-- What waits behind pieces are the comments among their tokens that await a declaration there. -/
theorem WellRead.awaiting_eq_waiting {ps : List Piece} (h : WellRead ps) {high : Nat}
    (hhigh : ∀ t ∈ ps.flatMap tokens, t.span.stop ≤ high) :
    awaiting ((ofKind .declarations ps).map Piece.span) (ps.flatMap tokens)
      (lastStop ((ofKind .declarations ps).map Piece.span)) high = waiting ps := by
  -- A comment acts on what waits before it, so the pieces are taken off from the end.
  induction ps using List.reverseRecOn with
  | nil => rfl
  | append_singleton ps piece ih =>
      have ih := ih h.left fun t ht => hhigh t (by rw [List.flatMap_append]; exact List.mem_append_left _ ht)
      have hinOrder := h.inOrder
      rw [waiting_concat, ← ih, ofKind_append, List.map_append]
      rw [List.flatMap_append, List.flatMap_singleton] at hinOrder hhigh ⊢
      cases piece with
      | skipped t =>
          have hstop (span : Span) (hspan : span ∈ (ofKind .declarations ps).map Piece.span) :
              span.stop ≤ t.span.start := h.span_stop_le hspan List.mem_cons_self
          have hfree : IsFree ((ofKind .declarations ps).map Piece.span) t :=
            fun span hspan => Or.inl (hstop span hspan)
          have ht : t.span.stop ≤ high := hhigh t (List.mem_append_right _ List.mem_cons_self)
          have hnone : (ofKind .declarations [skipped t]).map Piece.span = [] := rfl
          rw [hnone, List.append_nil, waitingBehind, tokens]
          by_cases hdoc : t.isDoc = true
          · rw [if_pos hdoc, awaiting_append_doc hinOrder hdoc hfree (lastStop_le hstop) ht]
          · rw [if_neg hdoc]
            by_cases hordinary : t.isOrdinary = true
            · rw [if_pos hordinary, awaiting_append_ordinary hinOrder hordinary hfree ht]
            · rw [if_neg hordinary, awaiting_append_of_forall]
              intro u hu
              rw [List.mem_singleton.mp hu]
              exact Or.inl (Token.commentKind_eq_none hdoc hordinary)
      | declaration construct q =>
          have hq : q ≠ [] :=
            h.tokens_ne_nil (.declaration construct q) (List.mem_append_right ps List.mem_cons_self)
          have hspan : (ofKind .declarations [declaration construct q]).map Piece.span =
              [(declaration construct q).span] := rfl
          rw [tokens] at hinOrder ⊢
          rw [hspan, lastStop_concat, waitingBehind]
          refine awaiting_eq_nil fun t ht => ?_
          have hne : ps.flatMap tokens ++ q ≠ [] := List.append_ne_nil_of_right_ne_nil _ hq
          have hstop := hinOrder.stop_le_getLast hne ht
          rw [List.getLast_append_of_ne_nil hne hq] at hstop
          rw [span_eq (declaration construct q) hq]
          exact Nat.lt_of_lt_of_le (hinOrder.nonempty t ht) hstop
      | statement found q =>
          have hnone : (ofKind .declarations [statement found q]).map Piece.span = [] := by cases found <;> rfl
          have hq := h.no_comment found q (List.mem_append_right ps List.mem_cons_self)
          rw [hnone, List.append_nil, waitingBehind, tokens, awaiting_append_of_forall]
          exact fun t ht => Or.inl (hq t ht)

/-- The pieces of a source text. -/
theorem wellRead_leftmost (source : String) : WellRead (leftmost (Token.lex source)) where
  inOrder := by
    rw [flatMap_tokens_leftmost]
    exact Token.lex_inOrder source
  tokens_ne_nil piece hmem := tokens_ne_nil_of_mem_leftmost hmem
  no_comment found q hmem t ht := by
    obtain ⟨p, us, -, hread⟩ := exists_of_mem_leftmost hmem
    exact Statement.commentKind_eq_none_of_rule hread ht

/-- Up to a place that no later piece reaches back to, later pieces change nothing. -/
theorem WellRead.awaiting_append {ps₁ ps₂ : List Piece} (h : WellRead (ps₁ ++ ps₂)) {low high : Nat}
    (hhigh : ∀ t ∈ ps₂.flatMap tokens, high ≤ t.span.start) :
    awaiting ((ofKind .declarations (ps₁ ++ ps₂)).map Piece.span) ((ps₁ ++ ps₂).flatMap tokens) low high =
      awaiting ((ofKind .declarations ps₁).map Piece.span) (ps₁.flatMap tokens) low high := by
  have hinOrder := h.inOrder
  rw [List.flatMap_append] at hinOrder
  have hbehind (t : Token) (ht : t ∈ ps₂.flatMap tokens) : high < t.span.stop :=
    Nat.lt_of_le_of_lt (hhigh t ht) (hinOrder.right.nonempty t ht)
  rw [List.flatMap_append, ofKind_append, List.map_append,
    awaiting_append_of_forall fun t ht => Or.inr (hbehind t ht), awaiting_append_spans]
  intro t ht span hspan
  obtain ⟨piece, hmem, rfl⟩ := List.mem_map.mp hspan
  have hmem := (mem_ofKind.mp hmem).1
  have hne := h.tokens_ne_nil piece (List.mem_append_right ps₁ hmem)
  rw [span_eq _ hne]
  exact Or.inr (hinOrder.stop_le_start ht (List.mem_flatMap.mpr ⟨piece, hmem, List.head_mem hne⟩))

/-- What waits where a declaration starts awaits that declaration. -/
theorem WellRead.awaiting_before_declaration {ps₁ ps₂ : List Piece} {construct : Construct} {q : List Token}
    (h : WellRead (ps₁ ++ declaration construct q :: ps₂)) :
    awaiting ((ofKind .declarations (ps₁ ++ declaration construct q :: ps₂)).map Piece.span)
      ((ps₁ ++ declaration construct q :: ps₂).flatMap tokens)
      (lastStop ((ofKind .declarations ps₁).map Piece.span)) (declaration construct q).span.start =
        waiting ps₁ := by
  have hq : (declaration construct q).tokens ≠ [] :=
    h.tokens_ne_nil _ (List.mem_append_right ps₁ List.mem_cons_self)
  have hinOrder := h.inOrder
  rw [List.flatMap_append, List.flatMap_cons] at hinOrder
  rw [span_eq _ hq, h.awaiting_append, h.left.awaiting_eq_waiting]
  · exact fun t ht => hinOrder.stop_le_start ht (List.mem_append_left _ (List.head_mem hq))
  · intro t ht
    rw [List.flatMap_cons] at ht
    have hhead := hinOrder.right.head_le_start (List.append_ne_nil_of_left_ne_nil hq _) ht
    rwa [List.head_append_of_ne_nil hq] at hhead

/-- What waits behind all pieces awaits a declaration at the end of the text. -/
theorem WellRead.awaiting_at_end {ps : List Piece} (h : WellRead ps) {source : String}
    (hsource : ps.flatMap tokens = Token.lex source) :
    awaiting ((ofKind .declarations ps).map Piece.span) (Token.lex source)
      (lastStop ((ofKind .declarations ps).map Piece.span)) (Text.byteSize source.toList) = waiting ps := by
  rw [← hsource, h.awaiting_eq_waiting]
  intro t ht
  rw [hsource] at ht
  obtain ⟨a, b, htext, hspan, -⟩ := Token.exists_text_of_mem ht
  rw [hspan, htext, Text.byteSize_append, Text.byteSize_append]
  dsimp only
  omega

end Piece

namespace Document

theorem docText_append (source : String) (ts us : List Token) :
    docText source (ts ++ us) = docText source ts ++ docText source us := by
  rw [docText, List.map_append, String.join_append]
  rfl

theorem taken_docText (source : String) (ts : List Token) :
    (PendingDoc.mk (docText source ts)).taken? = if ts = [] then none else some (docText source ts) := by
  cases ts with
  | nil => rfl
  | cons t ts =>
      rw [if_neg (List.cons_ne_nil t ts), PendingDoc.taken?, PendingDoc.isEmpty, docText, List.map_cons,
        String.join_cons]
      simp

theorem behind_docText {source : String} {piece : Piece}
    (h : ∀ t ∈ piece.tokens, t.span.slice? source = some t.text) (ts : List Token) :
    PendingDoc.behind ⟨docText source ts⟩ piece = ⟨docText source (piece.waitingBehind ts)⟩ := by
  cases piece with
  | declaration construct q => rfl
  | statement found q => rfl
  | skipped t =>
      have hslice := h t List.mem_cons_self
      rw [PendingDoc.behind, PendingDoc.pass, Piece.waitingBehind, Token.isDoc, Token.isOrdinary]
      cases hkind : t.commentKind? with
      | none => rfl
      | some kind =>
          have hbody : docText source [t] = "\n" ++ kind.body t.text := by
            rw [docText, List.map_singleton, String.join_cons, String.join_nil, String.append_empty,
              Token.bodyIn, hkind, hslice]
          dsimp only
          rw [Option.any_some, Option.any_some, PendingDoc.observe]
          cases kind.isDoc with
          | false => rfl
          | true => rw [if_pos rfl, if_pos rfl, docText_append, hbody, String.append_assoc]

theorem foldl_behind_docText {source : String} {ps : List Piece}
    (h : ∀ t ∈ ps.flatMap Piece.tokens, t.span.slice? source = some t.text) (ts : List Token) :
    ps.foldl PendingDoc.behind ⟨docText source ts⟩ = ⟨docText source (ps.foldl Piece.waitingBehind ts)⟩ := by
  induction ps generalizing ts with
  | nil => rfl
  | cons piece ps ih =>
      rw [List.flatMap_cons, List.forall_mem_append] at h
      rw [List.foldl_cons, List.foldl_cons, behind_docText h.1, ih h.2]

end Document

/-- Every declaration carries exactly the documentation that awaits it, and what awaits a declaration at the
end of the text is left over. -/
theorem scan_doc_eq (before : Extractor) (source path : String) :
    let document := (before.scan source path).1
    let spans := document.declarations.map (·.span)
    (∀ earlier d later, document.declarations = earlier ++ d :: later →
      let comments := Document.awaiting spans (Token.lex source)
        (Document.lastStop (earlier.map (·.span))) d.span.start
      d.doc = if comments = [] then none else some (Document.docText source comments)) ∧
    (before.scan source path).2.pending.text = Document.docText source
      (Document.awaiting spans (Token.lex source) (Document.lastStop spans) (Text.byteSize source.toList)) := by
  have hread := Piece.wellRead_leftmost source
  have htokens := Piece.flatMap_tokens_leftmost (Token.lex source)
  have hslice (t : Token) (ht : t ∈ Token.lex source) := Token.span_slice_of_mem_lex ht
  rw [Extractor.scan_eq]
  dsimp only
  rw [Document.digest_declarationSpans, Document.digest_pending]
  generalize Piece.leftmost (Token.lex source) = ps at *
  constructor
  · intro earlier d later hsplit
    obtain ⟨ps₁, q, ps₂, rfl, hearlier, hspan, hdoc⟩ := Document.exists_piece_of_digest hsplit
    have hbefore (t : Token) (ht : t ∈ ps₁.flatMap Piece.tokens) : t.span.slice? source = some t.text := by
      apply hslice
      rw [← htokens, List.flatMap_append]
      exact List.mem_append_left _ ht
    rw [hearlier, hspan, ← htokens, hread.awaiting_before_declaration, hdoc, ← Document.taken_docText]
    exact congrArg PendingDoc.taken? (Document.foldl_behind_docText hbefore [])
  · rw [hread.awaiting_at_end htokens]
    exact congrArg PendingDoc.text (Document.foldl_behind_docText (htokens ▸ hslice) [])

end BluespecDocs
