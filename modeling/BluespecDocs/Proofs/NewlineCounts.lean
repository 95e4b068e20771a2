import BluespecDocs.Proofs.CommentBodies
import BluespecDocs.Proofs.SelfContained
import BluespecDocs.Proofs.TokenTiling

/-!
Lines are counted by newlines. The line of a byte offset is one more than the number of newline bytes before it,
whatever characters these bytes are part of; and the line of a declaration is the one on which the word stands that
introduces it.
-/

namespace BluespecDocs

open Text

/-- The bytes of a source text in UTF-8. -/
def Text.bytes (source : String) : List UInt8 := source.toByteArray.data.toList

/-- How many newline bytes stand before a byte offset. -/
def Text.newlinesBefore (source : String) (n : Nat) : Nat := ((bytes source).take n).count 0x0a

namespace Text

/-- Only the newline itself is encoded with a newline byte: in a code of more than one byte all bytes have their
highest bit set. -/
theorem newline_not_mem_utf8EncodeChar {c : Char} (hc : c ≠ '\n') : 0x0a ∉ String.utf8EncodeChar c := by
  have hcode : c.val.toNat ≠ 10 := fun h => hc (Char.toNat_inj.mp h)
  have hbyte {k : Nat} (hne : k ≠ 10) (hlt : k < 256) : (0x0a : UInt8) ≠ UInt8.ofNat k := by
    intro heq
    have hnat := congrArg UInt8.toNat heq
    rw [UInt8.toNat_ofNat', Nat.mod_eq_of_lt hlt] at hnat
    exact hne hnat.symm
  rw [String.utf8EncodeChar.eq_1]
  split_ifs <;> simp only [List.mem_cons, List.not_mem_nil, or_false, not_or]
  · exact hbyte hcode (by omega)
  · exact ⟨hbyte (by omega) (by omega), hbyte (by omega) (by omega)⟩
  · exact ⟨hbyte (by omega) (by omega), hbyte (by omega) (by omega), hbyte (by omega) (by omega)⟩
  · exact ⟨hbyte (by omega) (by omega), hbyte (by omega) (by omega), hbyte (by omega) (by omega),
      hbyte (by omega) (by omega)⟩

theorem count_utf8Encode (cs : List Char) : (cs.flatMap String.utf8EncodeChar).count 0x0a = cs.count '\n' := by
  induction cs with
  | nil => rfl
  | cons c cs ih =>
      rw [List.flatMap_cons, List.count_append, ih]
      by_cases hc : c = '\n'
      · subst hc
        rw [List.count_cons_self, Nat.add_comm]
        rfl
      · rw [List.count_eq_zero.mpr (newline_not_mem_utf8EncodeChar hc), List.count_cons_of_ne hc, Nat.zero_add]

end Text

namespace LineTable

/-- Up to an offset as many lines start as newline bytes stand before it. -/
theorem countP_startsAfter (pos n : Nat) (cs : List Char) :
    (startsAfter pos cs).countP (· ≤ pos + n) = ((cs.flatMap String.utf8EncodeChar).take n).count 0x0a := by
  induction cs generalizing pos n with
  | nil => rw [List.flatMap_nil, List.take_nil]; rfl
  | cons c cs ih =>
      have hrest := ih (pos + c.utf8Size) (n - c.utf8Size)
      rw [List.flatMap_cons, List.take_append, List.count_append, String.length_utf8EncodeChar, ← hrest, startsAfter]
      by_cases hc : c = '\n'
      · subst hc
        rw [if_pos rfl]
        change ((pos + 1) :: startsAfter (pos + 1) cs).countP _ =
          ([0x0a].take n).count 0x0a + (startsAfter (pos + 1) cs).countP (· ≤ pos + 1 + (n - 1))
        cases n with
        | zero =>
            rw [Nat.add_zero, List.countP_cons_of_neg (by simp), countP_startsAfter_eq_zero (Nat.le_add_right pos 1),
              countP_startsAfter_eq_zero (Nat.le_refl _), List.take_zero, List.count_nil]
        | succ n =>
            rw [List.countP_cons_of_pos (by simp), List.take_succ_cons, List.take_nil, List.count_singleton_self,
              Nat.add_sub_cancel, Nat.add_assoc, Nat.add_comm 1 n, Nat.add_comm]
      · have hnone : ((String.utf8EncodeChar c).take n).count 0x0a = 0 :=
          List.count_eq_zero.mpr fun hmem => newline_not_mem_utf8EncodeChar hc (List.mem_of_mem_take hmem)
        rw [if_neg hc, hnone, Nat.zero_add]
        rcases Nat.lt_or_ge n c.utf8Size with hlt | hle
        · rw [countP_startsAfter_eq_zero (by omega), countP_startsAfter_eq_zero (by omega)]
        · rw [Nat.add_assoc, Nat.add_sub_cancel' hle]

theorem lineOf_eq_newlinesBefore (source : String) (n : Nat) :
    (ofSource source).lineOf n = 1 + newlinesBefore source n := by
  have hcount := countP_startsAfter 0 n source.toList
  rw [Nat.zero_add] at hcount
  rw [lineOf_ofSource, hcount, newlinesBefore, bytes, toByteArray_data]

theorem lineCount_eq (source : String) : (ofSource source).lineCount = 1 + (bytes source).count 0x0a := by
  rw [bytes, toByteArray_data, count_utf8Encode, ← length_startsAfter 0, Nat.add_comm]
  rfl

/-- In an increasing list the entries up to `n` are counted by the index at which they end. -/
theorem countP_eq_of_getElem {l : List Nat} (h : l.Pairwise (· < ·)) {n i : Nat} (hi : i ≤ l.length)
    (hsplit : ∀ j, (hj : j < l.length) → (l[j] ≤ n ↔ j < i)) : l.countP (· ≤ n) = i := by
  have hle : l.countP (· ≤ n) ≤ l.length := List.countP_le_length
  rcases Nat.lt_trichotomy (l.countP (· ≤ n)) i with hlt | heq | hgt
  · have hj := Nat.lt_of_lt_of_le hlt hi
    exact absurd ((getElem_le_iff h n hj).mp ((hsplit _ hj).mpr hlt)) (Nat.lt_irrefl _)
  · exact heq
  · have hj := Nat.lt_of_lt_of_le hgt hle
    exact absurd ((hsplit _ hj).mp ((getElem_le_iff h n hj).mpr hgt)) (Nat.lt_irrefl _)

/-- The table of a source text agrees with its newlines: a search that finds an offset among the starts of lines
has found its line, and one that does not has found the next line. -/
structure CountsNewlines (source : String) : Prop where
  lineOf_eq : ∀ n, (ofSource source).lineOf n = 1 + newlinesBefore source n
  increasing : (ofSource source).starts.toList.Pairwise (· < ·)
  size_eq : (ofSource source).starts.size = 1 + (bytes source).count 0x0a
  hit : ∀ i n, (ofSource source).starts.toList[i]? = some n → (ofSource source).lineOf n = i + 1
  miss : ∀ i n, i ≤ (ofSource source).starts.size →
    (∀ j start, (ofSource source).starts.toList[j]? = some start → if j < i then start < n else n < start) →
    (ofSource source).lineOf n = i

theorem countsNewlines (source : String) : CountsNewlines source where
  lineOf_eq := lineOf_eq_newlinesBefore source
  increasing := starts_pairwise source
  size_eq := lineCount_eq source
  hit i n hn := by
    obtain ⟨hi, rfl⟩ := List.getElem?_eq_some_iff.mp hn
    rw [lineOf_eq_countP]
    have hsorted := List.pairwise_iff_getElem.mp (starts_pairwise source)
    refine countP_eq_of_getElem (starts_pairwise source) hi fun j hj => ?_
    rcases Nat.lt_trichotomy j i with hlt | rfl | hgt
    · exact iff_of_true (Nat.le_of_lt (hsorted j i hj hi hlt)) (Nat.lt_succ_of_lt hlt)
    · exact iff_of_true (Nat.le_refl _) (Nat.lt_succ_self j)
    · exact iff_of_false (Nat.not_le_of_lt (hsorted i j hi hj hgt)) (Nat.not_lt_of_le hgt)
  miss i n hi hsplit := by
    rw [lineOf_eq_countP]
    refine countP_eq_of_getElem (starts_pairwise source) hi fun j hj => ?_
    have hstart := hsplit j _ (List.getElem?_eq_getElem hj)
    split at hstart
    · next hlt => exact iff_of_true (Nat.le_of_lt hstart) hlt
    · next hge => exact iff_of_false (Nat.not_le_of_lt hstart) hge

end LineTable

theorem Construct.keyword_mem_keywords (construct : Construct) : construct.keyword ∈ keywords := by
  cases construct <;> simp [keyword, keywords]

/-- A construct is read where the word stands that introduces it. -/
theorem Construct.exists_keyword_of_rule {ts us : List Token} {construct : Construct}
    (h : rule ts = some (construct, us)) : ∃ t rest, ts = t :: rest ∧ t.isWord construct.keyword = true := by
  have hword {α : Type} {word : String} {r : Rule α} (hr : Rule.StartsWith [word] r) {found : α × List Token}
      (hfound : r ts = some found) : ∃ t rest, ts = t :: rest ∧ t.isWord word = true := by
    obtain ⟨t, rest, hts, name, hname, ht⟩ := hr ts found hfound
    exact ⟨t, rest, hts, List.mem_singleton.mp hname ▸ ht⟩
  have hread := rule_eq_some.mp h
  cases construct with
  | ofPackage p => exact hword Package.rule_startsWith hread
  | ofTypedef t => exact hword Typedef.rule_startsWith hread
  | ofInterface i => exact hword Interface.rule_startsWith hread
  | ofTypeclass t => exact hword Typeclass.rule_startsWith hread
  | ofInstance i => exact hword Instance.rule_startsWith hread
  | ofModule m => exact hword Module.rule_startsWith hread
  | ofFunction f => exact hword Function.rule_startsWith hread

namespace Text

/-- The lines of a text up to a place in it: those that end before the place, and the start of the one it is on. -/
theorem exists_lead (front : List Char) : ∃ above lead, '\n' ∉ lead ∧ above.length = front.count '\n' ∧
    front = joinLines (above ++ [lead]) ∧
    ∀ rear, segments '\n' (front ++ rear) = above ++ segments '\n' (lead ++ rear) := by
  induction front using segments_induction '\n' with
  | last l hl =>
      exact ⟨[], l, hl, (List.count_eq_zero.mpr hl).symm, (joinLines_singleton l).symm, fun rear => rfl⟩
  | piece l r hl ih =>
      obtain ⟨above, lead, hlead, hlength, hjoin, hsegments⟩ := ih
      refine ⟨l :: above, lead, hlead, ?_, ?_, fun rear => ?_⟩
      · rw [List.length_cons, hlength, List.count_append, List.count_eq_zero.mpr hl, List.count_cons_self,
          Nat.zero_add]
      · rw [joinLines, List.cons_append, List.intercalate_cons_of_ne_nil (by simp), hjoin]
        simp [joinLines]
      · rw [List.append_assoc, List.cons_append, segments_append_cons, segments_of_not_mem hl, hsegments]
        rfl

theorem exists_trail {word : List Char} (hword : '\n' ∉ word) (rear : List Char) :
    ∃ trail below, segments '\n' (word ++ rear) = (word ++ trail) :: below := by
  by_cases hrear : '\n' ∈ rear
  · obtain ⟨l, r, rfl, hl⟩ := List.eq_append_cons_of_mem hrear
    refine ⟨l, segments '\n' r, ?_⟩
    rw [← List.append_assoc, segments_append_cons, segments_of_not_mem (by simp [hword, hl])]
    rfl
  · exact ⟨rear, [], segments_of_not_mem (by simp [hword, hrear])⟩

end Text

/-- The word that introduces a declaration starts where the declaration does, on the line that the declaration
tells, behind `lead`. -/
structure Declaration.OnItsLine (source : String) (d : Declaration) : Prop where
  keyword : ∃ t ∈ Token.lex source, t.isWord d.construct.keyword = true ∧ t.span.start = d.span.start
  line_eq : d.line = 1 + newlinesBefore source d.span.start
  on_line : ∃ above lead trail below,
    segments '\n' source.toList = above ++ (lead ++ d.construct.keyword.toList ++ trail) :: below ∧
      d.line = above.length + 1 ∧ d.span.start = byteSize (joinLines (above ++ [lead]))

theorem Extractor.onItsLine_of_mem {before : Extractor} {source path : String} {d : Declaration}
    (hd : d ∈ (before.scan source path).1.declarations) : d.OnItsLine source := by
  have hline : d.line = (LineTable.ofSource source).lineOf d.span.start :=
    congrArg Declaration.line (eq_ofConstruct_of_mem hd)
  obtain ⟨p, q, us, hq, hlex, hspan, hrule⟩ := exists_tokens_of_mem hd
  obtain ⟨t, rest, hts, hword⟩ := Construct.exists_keyword_of_rule hrule
  have hhead : q.head hq = t := by
    cases q with
    | nil => exact absurd rfl hq
    | cons u q => exact (List.cons.inj hts).1
  have ht : t ∈ Token.lex source := by
    rw [hlex, hts]
    exact List.mem_append_right p List.mem_cons_self
  have hstart : d.span.start = t.span.start := by rw [hspan, hhead]
  refine ⟨⟨t, ht, hword, hstart.symm⟩, by rw [hline, LineTable.lineOf_eq_newlinesBefore], ?_⟩
  obtain ⟨front, rear, hsource, hplace, -⟩ := Token.exists_text_of_mem ht
  rw [hplace, Nat.zero_add] at hstart
  rw [Token.text_of_isWord hword] at hsource
  obtain ⟨above, lead, hlead, hlength, hjoin, hsegments⟩ := exists_lead front
  have hflat : '\n' ∉ lead ++ d.construct.keyword.toList := by
    have hnone : ∀ word ∈ Construct.keywords, '\n' ∉ word.toList := by decide
    simp [hlead, hnone _ d.construct.keyword_mem_keywords]
  obtain ⟨trail, below, htrail⟩ := exists_trail hflat rear
  refine ⟨above, lead, trail, below, ?_, ?_, by rw [hstart, hjoin]⟩
  · rw [hsource, hsegments, ← List.append_assoc, htrail]
  · rw [hline, hstart, LineTable.lineOf_byteSize hsource, hlength, Nat.add_comm]

/-- Lines are counted by newlines, and a declaration tells the line of the word that introduces it. -/
theorem lines_count_newlines (source : String) :
    LineTable.CountsNewlines source ∧ ∀ (before : Extractor) (path : String),
      ∀ d ∈ (before.scan source path).1.declarations, d.OnItsLine source :=
  ⟨LineTable.countsNewlines source, fun _ _ _ hd => Extractor.onItsLine_of_mem hd⟩

/-- A module on the third line, behind a letter of two bytes, a carriage return and an empty line. -/
theorem lines_count_newlines_accented :
    ∃ d ∈ (({} : Extractor).scan "// \u00e9\r\n\n  module m;\nendmodule" "").1.declarations,
      d.line = 3 ∧ d.span.start = 10 ∧ d.OnItsLine "// \u00e9\r\n\n  module m;\nendmodule" := by
  have hfirst : (({} : Extractor).scan "// \u00e9\r\n\n  module m;\nendmodule" "").1.declarations.head?.map
      (fun d => (d.line, d.span.start)) = some (3, 10) := by decide +kernel
  obtain ⟨d, hd, heq⟩ := Option.map_eq_some_iff.mp hfirst
  obtain ⟨hline, hstart⟩ := Prod.mk.inj heq
  have hmem := List.mem_of_mem_head? hd
  exact ⟨d, hmem, hline, hstart, (lines_count_newlines _).2 _ _ d hmem⟩

end BluespecDocs
