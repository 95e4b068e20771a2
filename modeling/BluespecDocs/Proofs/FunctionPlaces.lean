import BluespecDocs.Proofs.BodyComments
import BluespecDocs.Proofs.LeftmostSearch
import BluespecDocs.Proofs.Rendering
import BluespecDocs.Proofs.SelfContained
import BluespecDocs.Proofs.TokenTiling

/-!
The places in a document. Every span that a document tells cuts a piece out of the source, so both written
forms of a document exist. The definitions inside a function are read one after the other between its header
and its closing word; so their spans lie strictly inside its own, in order and apart, and each is the span of
a function that is read again on its own.
-/

namespace BluespecDocs

open Rule

namespace Text

theorem splitAtByte_eq_some {cs a b : List Char} {n : Nat} :
    splitAtByte? cs n = some (a, b) ↔ cs = a ++ b ∧ n = byteSize a := by
  constructor
  · intro h
    fun_induction splitAtByte? cs n generalizing a b with
    | case1 cs =>
        cases h
        exact ⟨rfl, rfl⟩
    | case2 => cases h
    | case3 c cs n hle ih =>
        obtain ⟨⟨a', b'⟩, hsplit, heq⟩ := Option.map_eq_some_iff.mp h
        cases heq
        obtain ⟨rfl, hn⟩ := ih hsplit
        exact ⟨rfl, by rw [byteSize]; omega⟩
    | case4 => cases h
  · rintro ⟨rfl, rfl⟩
    exact splitAtByte_append a b

end Text

namespace Span

open Text

/-- A span cuts out the text that stands between two parts of the source. -/
theorem slice_eq_some {span : Span} {source text : String} :
    span.slice? source = some text ↔ ∃ a c, source.toList = a ++ (text.toList ++ c) ∧
      span = ⟨byteSize a, byteSize a + byteSize text.toList⟩ := by
  constructor
  · intro h
    rw [slice?] at h
    split at h
    · next hle =>
        obtain ⟨⟨a, tail⟩, htail, hrest⟩ := Option.bind_eq_some_iff.mp h
        obtain ⟨⟨piece, c⟩, hpiece, heq⟩ := Option.bind_eq_some_iff.mp hrest
        cases heq
        obtain ⟨hsource, hstart⟩ := splitAtByte_eq_some.mp htail
        obtain ⟨rfl, hlength⟩ := splitAtByte_eq_some.mp hpiece
        rw [length] at hlength
        refine ⟨a, c, by rw [String.toList_ofList, hsource], ?_⟩
        rw [String.toList_ofList, ← hstart, ← hlength, Nat.add_sub_cancel' hle]
    · cases h
  · rintro ⟨a, c, hsource, rfl⟩
    rw [slice_append hsource, String.ofList_toList]

/-- A span that covers at least one byte of a source text, and whole characters of it. -/
structure Cuts (source : String) (span : Span) : Prop where
  nonempty : span.start < span.stop
  within : span.stop ≤ source.utf8ByteSize
  start_isValid : String.Pos.Raw.IsValid source ⟨span.start⟩
  stop_isValid : String.Pos.Raw.IsValid source ⟨span.stop⟩
  slice : (span.slice? source).isSome

theorem cuts_of_slice {span : Span} {source text : String} (hlt : span.start < span.stop)
    (h : span.slice? source = some text) : span.Cuts source := by
  obtain ⟨a, c, hsource, rfl⟩ := slice_eq_some.mp h
  have hstop := isValid_of_append (a := a ++ text.toList) (b := c) (by rw [hsource, List.append_assoc])
  rw [byteSize_append] at hstop
  exact {
    nonempty := hlt
    within := hstop.le_utf8ByteSize
    start_isValid := isValid_of_append hsource
    stop_isValid := hstop
    slice := by rw [h]; rfl }

/-- What some tokens in a row cover is cut out by the span from the first to the last of them. -/
theorem cuts_of_tokens {source : String} {p q r : List Token} (hq : q ≠ [])
    (h : Token.lex source = p ++ (q ++ r)) :
    Cuts source ⟨(q.head hq).span.start, (q.getLast hq).span.stop⟩ := by
  have hinOrder : Token.InOrder q := (h ▸ Token.lex_inOrder source).right.left
  obtain ⟨text, -, hslice, -⟩ := Token.exists_lex_slice hq h
  refine cuts_of_slice ?_ hslice
  have hfirst := hinOrder.nonempty _ (List.head_mem hq)
  exact Nat.lt_of_lt_of_le hfirst (hinOrder.stop_le_getLast hq (List.head_mem hq))

end Span

namespace Function

mutual

theorem mapOffsets_mapOffsets (move again : Nat → Nat) :
    ∀ f : Function, (f.mapOffsets move).mapOffsets again = f.mapOffsets fun n => again (move n)
  | ⟨header, span, nested⟩ => by
      rw [mapOffsets, mapOffsets, mapOffsets, mapOffsetsAll_mapOffsetsAll]
      rfl

theorem mapOffsetsAll_mapOffsetsAll (move again : Nat → Nat) : ∀ fs : List Function,
    mapOffsetsAll again (mapOffsetsAll move fs) = mapOffsetsAll (fun n => again (move n)) fs
  | [] => rfl
  | f :: fs => by
      rw [mapOffsetsAll, mapOffsetsAll, mapOffsetsAll, mapOffsets_mapOffsets, mapOffsetsAll_mapOffsetsAll]

end

mutual

theorem mapOffsets_id : ∀ f : Function, f.mapOffsets (fun n => n) = f
  | ⟨header, span, nested⟩ => by
      rw [mapOffsets, mapOffsetsAll_id]
      rfl

theorem mapOffsetsAll_id : ∀ fs : List Function, mapOffsetsAll (fun n => n) fs = fs
  | [] => rfl
  | f :: fs => by rw [mapOffsetsAll, mapOffsets_id, mapOffsetsAll_id]

end

/-- Moving a function forward and back again changes nothing. -/
theorem mapOffsets_sub_add (d : Nat) (f : Function) : (f.mapOffsets (· + d)).mapOffsets (· - d) = f := by
  rw [mapOffsets_mapOffsets]
  simp only [Nat.add_sub_cancel]
  exact mapOffsets_id f

/-- The function `g` is `f` or stands inside it, at any depth. -/
inductive Within (g : Function) : Function → Prop
  | self : Within g g
  | inner {f h : Function} (hmem : h ∈ f.nested) (hwithin : Within g h) : Within g f

/-- The definitions directly inside a function are where they should be: inside its span without touching
its ends, one behind the other, and such that the text of each is read as that definition when it stands
alone, with all spans counted from its start. -/
structure WellNested (source : String) (f : Function) : Prop where
  inside : ∀ g ∈ f.nested, f.span.start < g.span.start ∧ g.span.stop < f.span.stop
  ordered : f.nested.Pairwise fun g h => g.span.stop ≤ h.span.start
  disjoint : f.nested.Pairwise fun g h => g.span.Disjoint h.span
  alone : ∀ g ∈ f.nested, ∃ text, g.span.slice? source = some text ∧
    complete? rule (Token.lex text) = some (g.mapOffsets (· - g.span.start))

theorem span_of_rule {q r : List Token} {f : Function} (h : rule (q ++ r) = some (f, r)) :
    f.span = ⟨(q.head (rule_shrinks.ne_nil h)).span.start, (q.getLast (rule_shrinks.ne_nil h)).span.stop⟩ := by
  obtain ⟨header, us, inner, -, -, rfl⟩ := rule_eq_some.mp h
  exact spanRead_append _ r

/-- Definitions read one after the other on the way from one place to a later one, `us`. Tokens are passed
over in front of each, and at least one behind the last. -/
inductive ReadBefore (us : List Token) : List Token → List Function → Prop
  | nil {q : List Token} (hq : q ≠ []) : ReadBefore us (q ++ us) []
  | cons {p q rest : List Token} {f : Function} {fs : List Function} (h : rule (q ++ rest) = some (f, rest))
      (others : ReadBefore us rest fs) : ReadBefore us (p ++ (q ++ rest)) (f :: fs)

namespace ReadBefore

variable {us ts : List Token} {fs : List Function}

theorem skip (h : ReadBefore us ts fs) (t : Token) : ReadBefore us (t :: ts) fs := by
  cases h with
  | nil hq => exact .nil (List.cons_ne_nil t _)
  | @cons p q rest f fs hrule others => exact @cons us (t :: p) q rest f fs hrule others

theorem exists_front (h : ReadBefore us ts fs) : ∃ q, q ≠ [] ∧ ts = q ++ us := by
  induction h with
  | @nil q hq => exact ⟨q, hq, rfl⟩
  | @cons p q rest f fs hrule _ ih =>
      obtain ⟨m, hm, rfl⟩ := ih
      exact ⟨p ++ (q ++ m), by simp [hm], by simp⟩

/-- Each of the definitions is read somewhere on the way, and tokens are left behind it. -/
theorem exists_place (h : ReadBefore us ts fs) {g : Function} (hg : g ∈ fs) :
    ∃ p q z, z ≠ [] ∧ ts = p ++ (q ++ (z ++ us)) ∧ rule (q ++ (z ++ us)) = some (g, z ++ us) := by
  induction h with
  | nil => cases hg
  | @cons p q rest f fs hrule others ih =>
      rcases List.mem_cons.mp hg with rfl | hg
      · obtain ⟨z, hz, rfl⟩ := others.exists_front
        exact ⟨p, q, z, hz, rfl, hrule⟩
      · obtain ⟨p', q', z, hz, rfl, hrule'⟩ := ih hg
        exact ⟨p ++ (q ++ p'), q', z, hz, by simp, hrule'⟩

theorem pairwise (h : ReadBefore us ts fs) (hts : Token.InOrder ts) :
    fs.Pairwise fun g h => g.span.stop ≤ h.span.start := by
  induction h with
  | nil => exact List.Pairwise.nil
  | @cons p q rest f fs hrule others ih =>
      refine List.Pairwise.cons (fun g hg => ?_) (ih hts.right.right)
      obtain ⟨p', q', z, -, rfl, hrule'⟩ := others.exists_place hg
      have hne := rule_shrinks.ne_nil hrule
      have hne' := rule_shrinks.ne_nil hrule'
      rw [span_of_rule hrule, span_of_rule hrule']
      refine hts.right.stop_le_start (List.getLast_mem hne) ?_
      exact List.mem_append_right p' (List.mem_append_left _ (List.head_mem hne'))

end ReadBefore

/-- The definitions that a body keeps are read one after the other, in front of its closing word. -/
theorem readBefore_of_bodyAndClose {ts us : List Token} {inner : List Function}
    (h : bodyAndClose ts = some (inner, us)) : ReadBefore us ts inner := by
  induction ts using body_induction generalizing inner with
  | nil =>
      rw [bodyAndClose_nil] at h
      cases h
  | closing t ts ht _ =>
      rw [bodyAndClose_closing ht] at h
      cases h
      obtain ⟨label, hlabel⟩ := Token.afterLabel_suffix .lowercase ts
      have hfront : t :: ts = (t :: label) ++ Token.afterLabel .lowercase ts := by
        rw [List.cons_append, hlabel]
      rw [hfront]
      exact .nil (List.cons_ne_nil t label)
  | nested ts ws vs header inside f _ _ hr _ ih =>
      rw [bodyAndClose_nested hr] at h
      obtain ⟨⟨others, us'⟩, hothers, heq⟩ := Option.map_eq_some_iff.mp h
      cases heq
      obtain ⟨q, rfl⟩ := rule_shrinks.keeps _ _ _ hr
      exact @ReadBefore.cons _ [] q vs f others hr (ih hothers)
  | filler t ts ht hr ih =>
      rw [bodyAndClose_filler hr ht] at h
      exact (ih h).skip t

/-- The definitions inside a function are read behind its first token. -/
theorem readBefore_of_rule {q r : List Token} {f : Function} (h : rule (q ++ r) = some (f, r)) :
    ∃ p m, p ≠ [] ∧ q ++ r = p ++ m ∧ ReadBefore r m f.nested := by
  obtain ⟨header, m, inner, hheader, hclose, rfl⟩ := rule_eq_some.mp h
  obtain ⟨p, hp⟩ := FunctionHeader.rule_shrinks.keeps _ _ _ hheader
  refine ⟨p, m, ?_, hp.symm, readBefore_of_bodyAndClose hclose⟩
  rintro rfl
  rw [← hp] at hheader
  exact Nat.lt_irrefl _ (FunctionHeader.rule_shrinks _ _ _ hheader).2

/-- The function is read somewhere among the tokens of the source. -/
def ReadIn (source : String) (f : Function) : Prop :=
  ∃ p q r, Token.lex source = p ++ (q ++ r) ∧ rule (q ++ r) = some (f, r)

namespace ReadIn

variable {source : String} {f g : Function}

theorem inner (h : f.ReadIn source) (hg : g ∈ f.nested) : g.ReadIn source := by
  obtain ⟨p, q, r, hlex, hrule⟩ := h
  obtain ⟨p', m, -, hm, hread⟩ := readBefore_of_rule hrule
  obtain ⟨p'', q', z, -, rfl, hrule'⟩ := hread.exists_place hg
  exact ⟨p ++ (p' ++ p''), q', z ++ r, by rw [hlex, hm]; simp, hrule'⟩

theorem within (h : f.ReadIn source) (hg : g.Within f) : g.ReadIn source := by
  induction hg with
  | self => exact h
  | inner hmem _ ih => exact ih (h.inner hmem)

theorem cuts (h : f.ReadIn source) : f.span.Cuts source := by
  obtain ⟨p, q, r, hlex, hrule⟩ := h
  rw [span_of_rule hrule]
  exact Span.cuts_of_tokens (rule_shrinks.ne_nil hrule) hlex

/-- The text of a function is read as that function when it stands alone. -/
theorem alone (h : f.ReadIn source) : ∃ text, f.span.slice? source = some text ∧
    complete? rule (Token.lex text) = some (f.mapOffsets (· - f.span.start)) := by
  obtain ⟨p, q, r, hlex, hrule⟩ := h
  have hq := rule_shrinks.ne_nil hrule
  obtain ⟨text, -, hslice, htokens, -⟩ := Token.exists_lex_slice hq hlex
  have hcut := rule_cut hrule
  rw [← htokens, (rule_recast (Token.recasts_mapOffsets _)).eq_map] at hcut
  obtain ⟨⟨g, rest⟩, hg, hmoved⟩ := Option.map_eq_some_iff.mp hcut
  obtain ⟨rfl, hrest⟩ := Prod.mk.inj hmoved
  obtain rfl := List.map_eq_nil_iff.mp hrest
  refine ⟨text, by rw [span_of_rule hrule, hslice], ?_⟩
  rw [span_of_rule hrule, mapOffsets_sub_add, complete_eq_some, hg]

theorem wellNested (h : f.ReadIn source) : f.WellNested source := by
  obtain ⟨p, q, r, hlex, hrule⟩ := id h
  obtain ⟨p', m, hp', hm, hread⟩ := readBefore_of_rule hrule
  have hinOrder : Token.InOrder (q ++ r) := (hlex ▸ Token.lex_inOrder source).right
  have hordered := hread.pairwise (hm ▸ hinOrder).right
  refine ⟨fun g hg => ?_, hordered, hordered.imp Or.inl, fun g hg => (h.inner hg).alone⟩
  obtain ⟨p'', q', z, hz, rfl, hrule'⟩ := hread.exists_place hg
  have hne := rule_shrinks.ne_nil hrule
  have hne' := rule_shrinks.ne_nil hrule'
  -- The tokens of the function: its header, tokens of the body, the tokens of `g`, and more of the body.
  have hparts : q ++ r = p' ++ (p'' ++ (q' ++ z)) ++ r := by
    rw [hm]
    simp
  obtain rfl := List.append_cancel_right hparts
  rw [span_of_rule hrule, span_of_rule hrule']
  have hbefore := hinOrder.left.stop_le_start (List.head_mem hp')
    (List.mem_append_right p'' (List.mem_append_left z (List.head_mem hne')))
  have hbehind := hinOrder.left.right.right.stop_le_start (List.getLast_mem hne') (List.getLast_mem hz)
  have hfirst := hinOrder.left.nonempty _ (List.mem_append_left _ (List.head_mem hp'))
  have hlast := hinOrder.left.right.right.right.nonempty _ (List.getLast_mem hz)
  have hhead : (p' ++ (p'' ++ (q' ++ z))).head hne = p'.head hp' := List.head_append_of_ne_nil hp'
  have hgetLast : (p' ++ (p'' ++ (q' ++ z))).getLast hne = z.getLast hz := by
    rw [List.getLast_append_of_ne_nil _ (by simp [hz]), List.getLast_append_of_ne_nil _ (by simp [hz]),
      List.getLast_append_of_ne_nil _ hz]
  rw [hhead, hgetLast]
  dsimp only
  omega

end ReadIn

end Function

/-- The function that a declaration declares is read among the tokens of the source, and spans as much as the
declaration. -/
theorem Extractor.readIn_of_mem {before : Extractor} {source path : String} {d : Declaration}
    (hd : d ∈ (before.scan source path).1.declarations) {f : Function} (hf : d.construct = .ofFunction f) :
    f.ReadIn source ∧ f.span = d.span := by
  obtain ⟨p, q, us, hq, hlex, hspan, hrule⟩ := exists_tokens_of_mem hd
  rw [hf] at hrule
  have hfunction : Function.rule (q ++ us) = some (f, us) := Construct.rule_eq_some.mp hrule
  exact ⟨⟨p, q, us, hlex, hfunction⟩, by rw [hspan, Function.span_of_rule hfunction]⟩

namespace Document

/-- All places that a document tells are safe to cut out of the source, and those of functions inside
functions are well nested. -/
structure WellPlaced (source : String) (doc : Document) : Prop where
  cuts : ∀ span ∈ doc.spans, span.Cuts source
  function_span : ∀ d ∈ doc.declarations, ∀ f, d.construct = .ofFunction f → f.span = d.span
  function_cuts : ∀ d ∈ doc.declarations, ∀ f, d.construct = .ofFunction f →
    ∀ g : Function, g.Within f → g.span.Cuts source
  function_wellNested : ∀ d ∈ doc.declarations, ∀ f, d.construct = .ofFunction f →
    ∀ g : Function, g.Within f → g.WellNested source

end Document

theorem Extractor.scan_cuts (before : Extractor) (source path : String) :
    ∀ span ∈ (before.scan source path).1.spans, span.Cuts source := by
  intro span hspan
  obtain ⟨p, q, r, hq, hlex, rfl⟩ := scan_aligned before source path span hspan
  exact Span.cuts_of_tokens hq hlex

theorem Extractor.isSome_slice_of_mem {before : Extractor} {source path : String} {d : Declaration}
    (hd : d ∈ (before.scan source path).1.declarations) : (d.span.slice? source).isSome :=
  (scan_cuts before source path d.span (List.mem_append_left _ (List.mem_map_of_mem hd))).slice

/-- Every document is well placed, and every source text can be published. -/
theorem scan_wellPlaced (before : Extractor) (source path : String) :
    (before.scan source path).1.WellPlaced source ∧
      ∀ settings, ∃ text, Document.publish? settings source path = some text := by
  refine ⟨⟨before.scan_cuts source path, ?_, ?_, ?_⟩, fun settings => ?_⟩
  · exact fun d hd f hf => (Extractor.readIn_of_mem hd hf).2
  · exact fun d hd f hf g hg => ((Extractor.readIn_of_mem hd hf).1.within hg).cuts
  · exact fun d hd f hf g hg => ((Extractor.readIn_of_mem hd hf).1.within hg).wellNested
  · exact Option.isSome_iff_exists.mp
      (Document.isSome_render settings fun d hd => Extractor.isSome_slice_of_mem hd)

end BluespecDocs
