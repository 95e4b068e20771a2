import BluespecDocs.Proofs.LexemeLocality
import BluespecDocs.Proofs.Relocation

/-!
The places of tokens. The tokens of a text stand in it one behind the other, and the span of each cuts its
text out of the source. A piece of the source that starts with a token and ends with a token has, on its
own, just the tokens that the whole source has there, moved to the start.
-/

namespace BluespecDocs

namespace Text

theorem byteSize_append (a b : List Char) : byteSize (a ++ b) = byteSize a + byteSize b := by
  induction a with
  | nil => exact (Nat.zero_add _).symm
  | cons c a ih => rw [List.cons_append, byteSize, byteSize, ih, Nat.add_assoc]

theorem byteSize_cons_pos (c : Char) (cs : List Char) : 0 < byteSize (c :: cs) :=
  Nat.add_pos_left c.utf8Size_pos _

theorem splitAtByte_append (a b : List Char) : splitAtByte? (a ++ b) (byteSize a) = some (a, b) := by
  induction a with
  | nil => cases b <;> rfl
  | cons c a ih =>
      obtain ⟨n, hn⟩ := Nat.exists_eq_add_of_lt (byteSize_cons_pos c a)
      rw [Nat.zero_add] at hn
      have hsize : c.utf8Size + byteSize a = n + 1 := hn
      have hrest : n + 1 - c.utf8Size = byteSize a := by omega
      rw [hn, List.cons_append, splitAtByte?, if_pos (by omega), hrest, ih]
      rfl

end Text

open Text

namespace Span

/-- Spans that share no byte. -/
def Disjoint (a b : Span) : Prop := a.stop ≤ b.start ∨ b.stop ≤ a.start

instance (a b : Span) : Decidable (a.Disjoint b) := inferInstanceAs (Decidable (_ ∨ _))

theorem slice_append {source : String} {a b c : List Char} (h : source.toList = a ++ (b ++ c)) :
    slice? ⟨byteSize a, byteSize a + byteSize b⟩ source = some (String.ofList b) := by
  have hlength : length ⟨byteSize a, byteSize a + byteSize b⟩ = byteSize b := Nat.add_sub_cancel_left _ _
  rw [slice?, if_pos (Nat.le_add_right _ _), hlength, h]
  dsimp only
  rw [splitAtByte_append, Option.bind_eq_bind, Option.bind_some]
  dsimp only
  rw [splitAtByte_append]
  rfl

end Span

namespace Token

theorem lexFrom_layout {c : Char} (hc : isLayout c) (pos : Nat) (cs : List Char) :
    lexFrom pos (c :: cs) = lexFrom (pos + c.utf8Size) cs := by
  rw [lexFrom, if_pos hc]

theorem lexFrom_layouts {w : List Char} (hw : ∀ c ∈ w, isLayout c) (pos : Nat) (b : List Char) :
    lexFrom pos (w ++ b) = lexFrom (pos + byteSize w) b := by
  induction w generalizing pos with
  | nil => rfl
  | cons c w ih =>
      have htail := ih fun d hd => hw d (List.mem_cons_of_mem c hd)
      rw [List.cons_append, lexFrom_layout (hw c List.mem_cons_self), htail, byteSize, Nat.add_assoc]

theorem lexFrom_token {c : Char} {x rest : List Char} {kind : TokenKind} (hc : isLayout c = false)
    (hfirst : Lexeme.first (c :: (x ++ rest)) = (kind, x.length + 1)) (pos : Nat) :
    lexFrom pos (c :: (x ++ rest)) =
      ⟨kind, String.ofList (c :: x), ⟨pos, pos + byteSize (c :: x)⟩⟩ ::
        lexFrom (pos + byteSize (c :: x)) rest := by
  rw [lexFrom, if_neg (by simp [hc]), hfirst]
  simp

/-- The text at `pos` starts with the token `c :: x` of some kind, whatever is cut off behind it. -/
structure Leading (c : Char) (x rest : List Char) (kind : TokenKind) : Prop where
  not_layout : isLayout c = false
  first_eq : ∀ b z, rest = b ++ z → Lexeme.first (c :: (x ++ b)) = (kind, x.length + 1)

theorem Leading.lexFrom_eq {c : Char} {x rest : List Char} {kind : TokenKind} (h : Leading c x rest kind)
    (pos : Nat) {b z : List Char} (hrest : rest = b ++ z) :
    lexFrom pos (c :: (x ++ b)) =
      ⟨kind, String.ofList (c :: x), ⟨pos, pos + byteSize (c :: x)⟩⟩ ::
        lexFrom (pos + byteSize (c :: x)) b :=
  lexFrom_token h.not_layout (h.first_eq b z hrest) pos

theorem exists_leading {c : Char} (hc : isLayout c = false) (cs : List Char) :
    ∃ x rest kind, cs = x ++ rest ∧ Leading c x rest kind := by
  have hpos := Lexeme.first_pos (c :: cs)
  have hle := Lexeme.first_cons_le_length c cs
  refine ⟨cs.take ((Lexeme.first (c :: cs)).2 - 1), cs.drop ((Lexeme.first (c :: cs)).2 - 1),
    (Lexeme.first (c :: cs)).1, (List.take_append_drop _ _).symm, hc, fun b z hrest => ?_⟩
  have hlength : (cs.take ((Lexeme.first (c :: cs)).2 - 1)).length = (Lexeme.first (c :: cs)).2 - 1 :=
    List.length_take_of_le (by omega)
  have hcs : cs.take ((Lexeme.first (c :: cs)).2 - 1) ++ b ++ z = cs := by
    rw [List.append_assoc, ← hrest, List.take_append_drop]
  have hcut := Lexeme.first_cons_append (c := c) (b := z) (a := cs.take ((Lexeme.first (c :: cs)).2 - 1) ++ b)
  rw [hcs, List.length_append, hlength] at hcut
  rw [hcut (by omega), hlength, Nat.sub_add_cancel hpos]

/-- Induction along the tokens of a text. -/
theorem lexFrom_induction {motive : Nat → List Char → Prop} (nil : ∀ pos, motive pos [])
    (layout : ∀ pos c cs, isLayout c → motive (pos + c.utf8Size) cs → motive pos (c :: cs))
    (token : ∀ pos c x rest kind, Leading c x rest kind → motive (pos + byteSize (c :: x)) rest →
      motive pos (c :: (x ++ rest)))
    (pos : Nat) (cs : List Char) : motive pos cs := by
  match cs with
  | [] => exact nil pos
  | c :: cs =>
      cases hc : isLayout c with
      | true => exact layout pos c cs hc (lexFrom_induction nil layout token _ cs)
      | false =>
          obtain ⟨x, rest, kind, rfl, hlead⟩ := exists_leading hc cs
          exact token pos c x rest kind hlead (lexFrom_induction nil layout token _ rest)
termination_by cs.length
decreasing_by all_goals simp +arith [*]

theorem lexFrom_add (d pos : Nat) (cs : List Char) :
    lexFrom (pos + d) cs = (lexFrom pos cs).map (mapOffsets (· + d)) := by
  induction pos, cs using lexFrom_induction with
  | nil pos => rw [lexFrom, lexFrom, List.map_nil]
  | layout pos c cs hc ih =>
      rw [lexFrom_layout hc, lexFrom_layout hc, Nat.add_right_comm, ih]
  | token pos c x rest kind hlead ih =>
      have hrest : rest = rest ++ [] := (List.append_nil rest).symm
      rw [hlead.lexFrom_eq _ hrest, hlead.lexFrom_eq _ hrest, Nat.add_right_comm, ih]
      rfl

/-- A token of a text at `pos`, with the text before and behind it. -/
theorem exists_text_of_mem {t : Token} {pos : Nat} {cs : List Char} (ht : t ∈ lexFrom pos cs) :
    ∃ a b, cs = a ++ (t.text.toList ++ b) ∧
      t.span = ⟨pos + byteSize a, pos + byteSize a + byteSize t.text.toList⟩ ∧ t.span.start < t.span.stop := by
  induction pos, cs using lexFrom_induction with
  | nil pos =>
      rw [lexFrom] at ht
      cases ht
  | layout pos c cs hc ih =>
      rw [lexFrom_layout hc] at ht
      obtain ⟨a, b, rfl, hspan, hlt⟩ := ih ht
      refine ⟨c :: a, b, rfl, ?_, hlt⟩
      rw [hspan, byteSize, Nat.add_assoc]
  | token pos c x rest kind hlead ih =>
      rw [hlead.lexFrom_eq pos (List.append_nil rest).symm] at ht
      rcases List.mem_cons.mp ht with rfl | ht
      · refine ⟨[], rest, ?_, ?_, ?_⟩
        · rw [String.toList_ofList]; rfl
        · rw [String.toList_ofList]; rfl
        · exact Nat.lt_add_of_pos_right (byteSize_cons_pos c x)
      · obtain ⟨a, b, rfl, hspan, hlt⟩ := ih ht
        refine ⟨c :: x ++ a, b, by simp, ?_, hlt⟩
        rw [hspan, byteSize_append]
        simp only [Nat.add_assoc]

theorem start_ge_of_mem {t : Token} {pos : Nat} {cs : List Char} (ht : t ∈ lexFrom pos cs) :
    pos ≤ t.span.start := by
  obtain ⟨a, b, -, hspan, -⟩ := exists_text_of_mem ht
  rw [hspan]
  exact Nat.le_add_right _ _

theorem span_slice_of_mem_lex {t : Token} {source : String} (ht : t ∈ lex source) :
    t.span.slice? source = some t.text := by
  obtain ⟨a, b, hsource, hspan, -⟩ := exists_text_of_mem ht
  rw [hspan, Nat.zero_add, Span.slice_append hsource, String.ofList_toList]

/-- Tokens with non-empty places that follow each other without overlap. -/
structure InOrder (ts : List Token) : Prop where
  nonempty : ∀ t ∈ ts, t.span.start < t.span.stop
  apart : ts.Pairwise fun t u => t.span.stop ≤ u.span.start

namespace InOrder

variable {q us : List Token}

theorem left (h : InOrder (q ++ us)) : InOrder q :=
  ⟨fun t ht => h.nonempty t (List.mem_append_left us ht), (List.pairwise_append.mp h.apart).1⟩

theorem right (h : InOrder (q ++ us)) : InOrder us :=
  ⟨fun t ht => h.nonempty t (List.mem_append_right q ht), (List.pairwise_append.mp h.apart).2.1⟩

theorem stop_le_start (h : InOrder (q ++ us)) {t u : Token} (ht : t ∈ q) (hu : u ∈ us) :
    t.span.stop ≤ u.span.start :=
  (List.pairwise_append.mp h.apart).2.2 t ht u hu

theorem stop_le_getLast (h : InOrder q) (hq : q ≠ []) {t : Token} (ht : t ∈ q) :
    t.span.stop ≤ (q.getLast hq).span.stop := by
  rw [← List.dropLast_concat_getLast hq] at h ht
  rcases List.mem_append.mp ht with ht | ht
  · have hapart := h.stop_le_start ht (List.mem_singleton_self _)
    have hlast := h.right.nonempty _ (List.mem_singleton_self _)
    omega
  · obtain rfl := List.mem_singleton.mp ht
    exact Nat.le_refl _

theorem head_le_start (h : InOrder q) (hq : q ≠ []) {t : Token} (ht : t ∈ q) :
    (q.head hq).span.start ≤ t.span.start := by
  obtain ⟨u, q, rfl⟩ := List.exists_cons_of_ne_nil hq
  rcases List.mem_cons.mp ht with rfl | ht
  · exact Nat.le_refl _
  · have hapart := List.rel_of_pairwise_cons h.apart ht
    have hfirst := h.nonempty u List.mem_cons_self
    rw [List.head_cons]
    omega

end InOrder

theorem lexFrom_inOrder (pos : Nat) (cs : List Char) : InOrder (lexFrom pos cs) := by
  refine ⟨fun t ht => ?_, ?_⟩
  · obtain ⟨-, -, -, -, hlt⟩ := exists_text_of_mem ht
    exact hlt
  · induction pos, cs using lexFrom_induction with
    | nil pos =>
        rw [lexFrom]
        exact List.Pairwise.nil
    | layout pos c cs hc ih => rwa [lexFrom_layout hc]
    | token pos c x rest kind hlead ih =>
        rw [hlead.lexFrom_eq pos (List.append_nil rest).symm]
        exact List.Pairwise.cons (fun u hu => start_ge_of_mem hu) ih

theorem lex_inOrder (source : String) : InOrder (lex source) := lexFrom_inOrder 0 source.toList

/-- From each token on, the tokens of a text are those of the rest of the text. -/
theorem exists_lexFrom_suffix {t : Token} {p r : List Token} {pos : Nat} {cs : List Char}
    (h : lexFrom pos cs = p ++ t :: r) :
    ∃ a b, cs = a ++ b ∧ t.span.start = pos + byteSize a ∧ lexFrom t.span.start b = t :: r := by
  induction pos, cs using lexFrom_induction generalizing p with
  | nil pos =>
      rw [lexFrom] at h
      cases p <;> cases h
  | layout pos c cs hc ih =>
      rw [lexFrom_layout hc] at h
      obtain ⟨a, b, rfl, hstart, hlex⟩ := ih h
      exact ⟨c :: a, b, rfl, by rw [hstart, byteSize, Nat.add_assoc], hlex⟩
  | token pos c x rest kind hlead ih =>
      cases p with
      | nil =>
          have hstart : t.span.start = pos := by
            rw [hlead.lexFrom_eq pos (List.append_nil rest).symm, List.nil_append, List.cons.injEq] at h
            rw [← h.1]
          rw [hstart]
          exact ⟨[], c :: (x ++ rest), rfl, rfl, h⟩
      | cons u p =>
          rw [hlead.lexFrom_eq pos (List.append_nil rest).symm, List.cons_append, List.cons.injEq] at h
          obtain ⟨a, b, rfl, hstart, hlex⟩ := ih h.2
          refine ⟨c :: x ++ a, b, by simp, ?_, hlex⟩
          rw [hstart, byteSize_append, Nat.add_assoc]

/-- Cut behind a token, a text has the tokens up to there, and the rest of it has the others. -/
theorem exists_lexFrom_append {q r : List Token} {pos : Nat} {cs : List Char} (hq : q ≠ [])
    (h : lexFrom pos cs = q ++ r) :
    ∃ b z, cs = b ++ z ∧ (q.getLast hq).span.stop = pos + byteSize b ∧ lexFrom pos b = q ∧
      lexFrom (q.getLast hq).span.stop z = r := by
  induction pos, cs using lexFrom_induction generalizing q with
  | nil pos =>
      rw [lexFrom] at h
      exact absurd (List.append_eq_nil_iff.mp h.symm).1 hq
  | layout pos c cs hc ih =>
      rw [lexFrom_layout hc] at h
      obtain ⟨b, z, rfl, hstop, hlex, hrest⟩ := ih hq h
      exact ⟨c :: b, z, rfl, by rw [hstop, byteSize, Nat.add_assoc], by rw [lexFrom_layout hc, hlex], hrest⟩
  | token pos c x rest kind hlead ih =>
      rw [hlead.lexFrom_eq pos (List.append_nil rest).symm] at h
      cases q with
      | nil => exact absurd rfl hq
      | cons t q =>
          rw [List.cons_append, List.cons.injEq] at h
          obtain ⟨rfl, h⟩ := h
          by_cases hempty : q = []
          · subst hempty
            refine ⟨c :: x, rest, rfl, rfl, ?_, h⟩
            have hlone := hlead.lexFrom_eq pos (List.nil_append rest).symm
            rw [List.append_nil, lexFrom] at hlone
            exact hlone
          · obtain ⟨b, z, rfl, hstop, hlex, hrest⟩ := ih hempty h
            refine ⟨c :: x ++ b, z, by simp, ?_, ?_, ?_⟩
            · rw [List.getLast_cons hempty, hstop, byteSize_append, Nat.add_assoc]
            · rw [List.cons_append, hlead.lexFrom_eq pos rfl, hlex]
            · rwa [List.getLast_cons hempty]

theorem head_last_of_map {ts q : List Token} {d : Nat} (hts : ts ≠ []) (hq : q ≠ [])
    (h : ts.map (mapOffsets (· + d)) = q) : (ts.head hts).span.start + d = (q.head hq).span.start ∧
      (ts.getLast hts).span.stop + d = (q.getLast hq).span.stop := by
  subst h
  rw [List.head_map, List.getLast_map]
  exact ⟨rfl, rfl⟩

/-- The piece of a source text that some of its tokens in a row cover has these tokens, moved to the start,
and they reach from its first to its last byte. -/
theorem exists_lex_slice {source : String} {p q r : List Token} (hq : q ≠ [])
    (h : lex source = p ++ (q ++ r)) :
    ∃ text, ∃ hne : lex text ≠ [],
      Span.slice? ⟨(q.head hq).span.start, (q.getLast hq).span.stop⟩ source = some text ∧
      (lex text).map (mapOffsets (· + (q.head hq).span.start)) = q ∧
      ((lex text).head hne).span.start = 0 ∧ ((lex text).getLast hne).span.stop = byteSize text.toList := by
  obtain ⟨t, q, rfl⟩ := List.exists_cons_of_ne_nil hq
  rw [lex, List.cons_append] at h
  obtain ⟨a, b, hsource, hstart, hlex⟩ := exists_lexFrom_suffix h
  rw [← List.cons_append] at hlex
  obtain ⟨b, z, rfl, hstop, hlex, -⟩ := exists_lexFrom_append hq hlex
  have hmap : (lex (String.ofList b)).map (mapOffsets (· + t.span.start)) = t :: q := by
    rw [lex, String.toList_ofList, ← lexFrom_add, Nat.zero_add, hlex]
  have hne : lex (String.ofList b) ≠ [] := fun hnil => by
    rw [hnil] at hmap
    cases hmap
  obtain ⟨hhead, hlast⟩ := head_last_of_map hne hq hmap
  rw [Nat.zero_add] at hstart
  refine ⟨String.ofList b, hne, ?_, hmap, ?_, ?_⟩
  · rw [List.head_cons, hstop, hstart, Span.slice_append hsource]
  · rw [List.head_cons] at hhead
    omega
  · rw [String.toList_ofList]
    omega

/-- What stands in a source text from one of its tokens to another has just these tokens on its own. -/
theorem lex_slice (source : String) (i j : Nat) (hij : i ≤ j) (hj : j < (lex source).length) :
    ∃ text, Span.slice? ⟨(lex source)[i].span.start, (lex source)[j].span.stop⟩ source = some text ∧
      (lex text).map (mapOffsets (· + (lex source)[i].span.start)) = ((lex source).take (j + 1)).drop i := by
  have hq : ((lex source).take (j + 1)).drop i ≠ [] := by
    apply List.ne_nil_of_length_pos
    rw [List.length_drop, List.length_take_of_le hj]
    omega
  have hparts : lex source = ((lex source).take (j + 1)).take i ++
      (((lex source).take (j + 1)).drop i ++ (lex source).drop (j + 1)) := by
    rw [← List.append_assoc, List.take_append_drop, List.take_append_drop]
  have hhead : (((lex source).take (j + 1)).drop i).head hq = (lex source)[i] := by
    rw [List.head_drop, List.getElem_take]
  have hlast : (((lex source).take (j + 1)).drop i).getLast hq = (lex source)[j] := by
    rw [List.getLast_drop, List.getLast_take, Nat.add_sub_cancel, List.getElem?_eq_getElem hj, Option.getD_some]
  obtain ⟨text, -, hslice, htokens, -⟩ := exists_lex_slice hq hparts
  rw [hhead] at hslice htokens
  rw [hlast] at hslice
  exact ⟨text, hslice, htokens⟩

/-- From a string that is not closed, with an opening mark in it, to a literal on the next line. -/
theorem lex_slice_unclosed :
    (Span.slice? ⟨2, 15⟩ "x \"a /* b\n 'h1F z" = some "\"a /* b\n 'h1F") ∧
      (lex "\"a /* b\n 'h1F").map (mapOffsets (· + 2)) =
        [⟨.other, "\"a /* b", ⟨2, 9⟩⟩, ⟨.based, "'h1F", ⟨11, 15⟩⟩] := by
  have hlex : lex "x \"a /* b\n 'h1F z" = [⟨.word, "x", ⟨0, 1⟩⟩, ⟨.other, "\"a /* b", ⟨2, 9⟩⟩,
      ⟨.based, "'h1F", ⟨11, 15⟩⟩, ⟨.word, "z", ⟨16, 17⟩⟩] := by decide +kernel
  have hslice : Span.slice? ⟨2, 15⟩ "x \"a /* b\n 'h1F z" = some "\"a /* b\n 'h1F" := by decide +kernel
  obtain ⟨text, htext, htokens⟩ := lex_slice "x \"a /* b\n 'h1F z" 1 2 (by decide) (by rw [hlex]; decide)
  simp only [hlex, List.getElem_cons_succ, List.getElem_cons_zero] at htext htokens
  obtain rfl := Option.some.inj (hslice.symm.trans htext)
  exact ⟨hslice, htokens⟩

end Token

end BluespecDocs
