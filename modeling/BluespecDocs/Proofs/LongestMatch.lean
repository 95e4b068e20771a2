import BluespecDocs.Proofs.LexicalGrammar
import BluespecDocs.Proofs.TokenPlaces

/-!
The lexer is longest match over the lexical grammar. The reach of each lexical class is the length of the
longest beginning of a text in the language of its kind; the class that reaches furthest gives the token, and
where none reaches at all no text of any kind stands there.
-/

open scoped Computability

namespace BluespecDocs

open Grammar

namespace Lexeme

/-- A reach that is the length of the longest beginning in a language, if there is one that is not empty. -/
structure Longest (l : Language Char) (reach : List Char → Nat) : Prop where
  mem : ∀ cs, reach cs ≠ 0 → cs.take (reach cs) ∈ l
  le : ∀ {cs w}, w ∈ l → w <+: cs → w.length ≤ reach cs

namespace Longest

variable {l : Language Char} {reach tail : List Char → Nat} {s : String}

theorem take_mem (h : Longest l reach) (hnil : [] ∈ l) (cs : List Char) : cs.take (reach cs) ∈ l := by
  by_cases hzero : reach cs = 0
  · rwa [hzero, List.take_zero]
  · exact h.mem cs hzero

/-- One character in front. -/
theorem one_mul {test : Char → Bool} (h : Longest l tail) (hl : [] ∈ l) (hnil : reach [] = 0)
    (hcons : ∀ c cs, reach (c :: cs) = if test c then 1 + tail cs else 0) : Longest (one test * l) reach where
  mem cs hne := by
    cases cs with
    | nil => exact absurd hnil hne
    | cons c cs =>
        rw [hcons] at hne ⊢
        split at hne
        · next hc =>
            rw [if_pos hc, Nat.add_comm, List.take_succ_cons]
            exact mem_one_mul.mpr ⟨c, _, hc, h.take_mem hl cs, rfl⟩
        · exact absurd rfl hne
  le {cs w} hw hbegins := by
    obtain ⟨c, v, hc, hv, rfl⟩ := mem_one_mul.mp hw
    obtain ⟨z, rfl⟩ := hbegins
    have hle := h.le hv (List.prefix_append v z)
    rw [List.cons_append, hcons, if_pos hc, List.length_cons]
    omega

theorem text_mul_of (h : Longest l tail)
    (hmem : ∀ cs, reach (s.toList ++ cs) ≠ 0 →
      reach (s.toList ++ cs) = s.toList.length + tail cs ∧ cs.take (tail cs) ∈ l)
    (hreach : ∀ {v cs}, v ∈ l → v <+: cs → reach (s.toList ++ cs) = s.toList.length + tail cs)
    (hother : ∀ cs, ¬ s.toList <+: cs → reach cs = 0) : Longest (text s * l) reach where
  mem cs hne := by
    by_cases hs : s.toList <+: cs
    · obtain ⟨z, rfl⟩ := hs
      obtain ⟨heq, htake⟩ := hmem z hne
      rw [heq, List.take_length_add_append]
      exact mem_text_mul.mpr ⟨_, htake, rfl⟩
    · exact absurd (hother cs hs) hne
  le {cs w} hw hbegins := by
    obtain ⟨v, hv, rfl⟩ := mem_text_mul.mp hw
    obtain ⟨z, rfl⟩ := hbegins
    have hle := h.le hv (List.prefix_append v z)
    rw [List.append_assoc, hreach hv (List.prefix_append v z), List.length_append]
    omega

/-- A fixed text in front. -/
theorem text_mul (h : Longest l tail) (hl : [] ∈ l)
    (happend : ∀ cs, reach (s.toList ++ cs) = s.toList.length + tail cs)
    (hother : ∀ cs, ¬ s.toList <+: cs → reach cs = 0) : Longest (text s * l) reach :=
  h.text_mul_of (fun cs _ => ⟨happend cs, h.take_mem hl cs⟩) (fun _ _ => happend _) hother

/-- A fixed text in front of a part that must not be empty. -/
theorem text_mul_required (h : Longest l tail) (hl : [] ∉ l)
    (happend : ∀ cs, reach (s.toList ++ cs) = if tail cs = 0 then 0 else s.toList.length + tail cs)
    (hother : ∀ cs, ¬ s.toList <+: cs → reach cs = 0) : Longest (text s * l) reach := by
  refine h.text_mul_of (fun cs hne => ?_) (fun {v cs} hv hbegins => ?_) hother
  · rw [happend] at hne ⊢
    split at hne
    · exact absurd rfl hne
    · next htail =>
        rw [if_neg htail]
        exact ⟨rfl, h.mem cs htail⟩
  · have hle := h.le hv hbegins
    have hpos : v.length ≠ 0 := fun hzero => hl (List.eq_nil_of_length_eq_zero hzero ▸ hv)
    rw [happend, if_neg (by omega)]

end Longest

theorem longest_one_kstar (test : Char → Bool) :
    Longest (one test)∗ fun cs => (cs.takeWhile test).length where
  mem cs _ := by
    rw [← List.prefix_iff_eq_take.mp (List.takeWhile_prefix test), mem_one_kstar]
    exact List.all_eq_true.mp List.all_takeWhile
  le {cs w} hw hbegins := by
    obtain ⟨z, rfl⟩ := hbegins
    rw [List.takeWhile_append_of_pos (mem_one_kstar.mp hw), List.length_append]
    exact Nat.le_add_right _ _

theorem longest_one_mul_kstar (test : Char → Bool) :
    Longest (one test * (one test)∗) fun cs => (cs.takeWhile test).length where
  mem cs hne := by
    rw [mem_one_mul_kstar, ← mem_one_kstar]
    refine ⟨?_, (longest_one_kstar test).mem cs hne⟩
    rw [← List.prefix_iff_eq_take.mp (List.takeWhile_prefix test)]
    exact fun hnil => hne (List.length_eq_zero_iff.mpr hnil)
  le {cs w} hw hbegins := by
    refine (longest_one_kstar test).le (mem_one_kstar.mpr ?_) hbegins
    exact (mem_one_mul_kstar.mp hw).2

theorem nil_notMem_word : [] ∉ Grammar.word := by
  rw [Grammar.word, among, mem_one_mul]
  rintro ⟨c, v, -, -, h⟩
  cases h

theorem longest_word : Longest TokenKind.word.language word := by
  rw [TokenKind.language, Grammar.word, wordPart, among, among, ← isWordStart_eq, ← isWordPart_eq]
  exact (longest_one_kstar isWordPart).one_mul (Language.nil_mem_kstar _) rfl fun c cs => by rw [word]

theorem longest_number : Longest TokenKind.number.language number := by
  rw [TokenKind.language, among, among, ← isDigit_eq, ← isDigit_or_underscore_eq]
  exact (longest_one_kstar _).one_mul (Language.nil_mem_kstar _) rfl fun c cs => by rw [number]

theorem longest_systemWord : Longest TokenKind.systemWord.language systemWord := by
  rw [TokenKind.language, wordPart, among, ← isWordPart_eq]
  refine (longest_one_mul_kstar isWordPart).text_mul_required ?_ (fun cs => ?_) fun cs hcs => ?_
  · exact fun h => (mem_one_mul_kstar.mp h).1 rfl
  · change systemWord ('$' :: cs) = _
    rw [systemWord, signed, Nat.add_comm]
    rfl
  · rw [systemWord]
    rintro ds rfl
    exact hcs ⟨ds, rfl⟩

theorem longest_directive : Longest TokenKind.directive.language directive := by
  refine longest_word.text_mul_required nil_notMem_word (fun cs => ?_) fun cs hcs => ?_
  · change directive ('\x60' :: cs) = _
    rw [directive, signed, Nat.add_comm]
    rfl
  · rw [directive]
    rintro ds rfl
    exact hcs ⟨ds, rfl⟩

theorem longest_one (test : Char → Bool) :
    Longest (one test) fun cs => if cs.head?.any test then 1 else 0 where
  mem cs hne := by
    cases cs with
    | nil => exact absurd rfl hne
    | cons c cs =>
        by_cases hc : test c = true
        · simpa [hc] using ⟨c, hc, rfl⟩
        · simp [hc] at hne
  le {cs w} hw hbegins := by
    obtain ⟨c, hc, rfl⟩ := hw
    obtain ⟨z, rfl⟩ := hbegins
    simp [hc]

theorem inRanges_bit {c : Char} : inRanges [('0', '1')] c = true ↔ c = '0' ∨ c = '1' := by
  simp [inRanges, Char.le_def, UInt32.le_iff_toNat_le, ← Char.toNat_inj]
  omega

theorem longest_fill : Longest TokenKind.fill.language fill := by
  refine (longest_one (inRanges [('0', '1')])).text_mul_required ?_ (fun cs => ?_) fun cs hcs => ?_
  · rintro ⟨c, -, h⟩
    cases h
  · change fill ('\x27' :: cs) = _
    cases cs with
    | nil => rfl
    | cons c cs =>
        rw [List.head?_cons, Option.any_some]
        by_cases hc : inRanges [('0', '1')] c = true
        · rw [if_pos hc]
          rcases inRanges_bit.mp hc with rfl | rfl <;> rfl
        · rw [if_neg hc, if_pos rfl, fill]
          · rintro ds hcons
            cases hcons
            exact hc (by decide)
          · rintro ds hcons
            cases hcons
            exact hc (by decide)
  · rw [fill]
    · rintro ds rfl
      exact hcs ⟨'0' :: ds, rfl⟩
    · rintro ds rfl
      exact hcs ⟨'1' :: ds, rfl⟩

theorem longest_exactly (s : String) : Longest (text s) (exactly s) where
  mem cs hne := by
    rw [exactly] at hne ⊢
    split at hne
    · next hbegins =>
        rw [if_pos hbegins]
        exact (List.prefix_iff_eq_take.mp (List.isPrefixOf_iff_prefix.mp hbegins)).symm
    · exact absurd rfl hne
  le {cs w} hw hbegins := by
    obtain rfl : w = s.toList := hw
    rw [exactly, if_pos (List.isPrefixOf_iff_prefix.mpr hbegins)]

/-! Literals with a base -/

theorem mem_based {letters digits : List (Char × Char)} {w : List Char} :
    w ∈ Grammar.based letters digits ↔ ∃ ds letter vs, (∀ d ∈ ds, Char.isDigit d = true) ∧
      inRanges letters letter = true ∧ (vs ≠ [] ∧ ∀ v ∈ vs, inRanges digits v = true) ∧
        w = ds ++ '\x27' :: letter :: vs := by
  rw [Grammar.based, among, among, among, ← isDigit_eq, Language.mem_mul]
  simp only [mem_one_kstar, mem_text_mul, mem_one_mul, ← mem_one_mul_kstar]
  constructor
  · rintro ⟨ds, hds, _, ⟨_, ⟨letter, vs, hletter, hvs, rfl⟩, rfl⟩, rfl⟩
    exact ⟨ds, letter, vs, hds, hletter, hvs, rfl⟩
  · rintro ⟨ds, letter, vs, hds, hletter, hvs, rfl⟩
    exact ⟨ds, hds, _, ⟨_, ⟨letter, vs, hletter, hvs, rfl⟩, rfl⟩, rfl⟩

theorem exists_of_baseAndDigits_ne_zero {cs : List Char} (h : baseAndDigits cs ≠ 0) :
    ∃ base letter rest, cs = '\x27' :: letter :: rest ∧ Base.ofLetter? letter = some base ∧
      rest.takeWhile base.admits ≠ [] ∧ baseAndDigits cs = (rest.takeWhile base.admits).length + 2 := by
  match cs with
  | [] => exact absurd rfl h
  | [c] => simp [baseAndDigits] at h
  | c :: letter :: rest =>
      by_cases hc : c = '\x27'
      · subst hc
        rw [baseAndDigits_cons] at h ⊢
        cases hletter : Base.ofLetter? letter with
        | none => simp [hletter] at h
        | some base =>
            have hne : (rest.takeWhile base.admits).length ≠ 0 := fun hzero => by simp [hletter, hzero] at h
            refine ⟨base, letter, rest, rfl, hletter, List.length_pos_iff.mp (Nat.pos_of_ne_zero hne), ?_⟩
            exact if_neg hne
      · simp [baseAndDigits, hc] at h

theorem longest_based : Longest TokenKind.based.language based where
  mem cs hne := by
    rw [based_eq] at hne ⊢
    dsimp only at hne ⊢
    split at hne
    · exact absurd rfl hne
    · next hreach =>
        rw [if_neg hreach]
        obtain ⟨base, letter, rest, hdrop, hletter, hdigits, hsome⟩ := exists_of_baseAndDigits_ne_zero hreach
        rw [hsome, List.take_add, hdrop, List.take_succ_cons, List.take_succ_cons,
          ← List.prefix_iff_eq_take.mp (List.takeWhile_prefix _),
          ← List.prefix_iff_eq_take.mp (List.takeWhile_prefix _)]
        refine TokenKind.mem_language_based.mpr
          ⟨base, mem_based.mpr ⟨_, letter, _, ?_, ?_, ⟨hdigits, ?_⟩, rfl⟩⟩
        · exact List.all_eq_true.mp List.all_takeWhile
        · exact Base.ofLetter_eq_some.mp hletter
        · rw [← Base.admits_eq]
          exact List.all_eq_true.mp List.all_takeWhile
  le {cs w} hw hbegins := by
    obtain ⟨base, hw⟩ := TokenKind.mem_language_based.mp hw
    obtain ⟨ds, letter, vs, hds, hletter, ⟨hne, hvs⟩, rfl⟩ := mem_based.mp hw
    obtain ⟨z, rfl⟩ := hbegins
    rw [← Base.admits_eq] at hvs
    rw [List.append_assoc, List.cons_append, List.cons_append]
    have hwidth : (ds ++ '\x27' :: letter :: (vs ++ z)).takeWhile Char.isDigit = ds := by
      rw [List.takeWhile_append_of_pos hds, List.takeWhile_cons_of_neg (by decide), List.append_nil]
    have hpos := List.length_pos_iff.mpr hne
    have hreach : baseAndDigits ('\x27' :: letter :: (vs ++ z)) =
        vs.length + (z.takeWhile base.admits).length + 2 := by
      rw [baseAndDigits_cons, Base.ofLetter_eq_some.mpr hletter]
      dsimp only
      rw [List.takeWhile_append_of_pos hvs, List.length_append, if_neg (by omega)]
    rw [based_eq, hwidth]
    dsimp only
    rw [List.drop_left, hreach, if_neg (by omega), List.length_append, List.length_cons, List.length_cons]
    omega

/-! Strings -/

theorem mem_stringPiece {u : List Char} : u ∈ stringPiece ↔
    (∃ c, (c ≠ '"' ∧ c ≠ '\\' ∧ c ≠ '\n') ∧ u = [c]) ∨ ∃ c, c ≠ '\n' ∧ u = ['\\', c] := by
  simp only [stringPiece, Language.mem_add, mem_text_mul, mem_noneOf]
  refine or_congr (by simp) ⟨?_, ?_⟩
  · rintro ⟨_, ⟨c, hc, rfl⟩, rfl⟩
    exact ⟨c, by simpa using hc, rfl⟩
  · rintro ⟨c, hc, rfl⟩
    exact ⟨[c], ⟨c, by simpa using hc, rfl⟩, rfl⟩

/-- Pieces of a string body are read one after the other. -/
theorem stringBody_append_of_mem {v : List Char} (hv : v ∈ stringPiece∗) (z : List Char) :
    stringBody (v ++ z) = v.length + stringBody z := by
  induction hv using kstar_induction with
  | nil => rw [List.nil_append, List.length_nil, Nat.zero_add]
  | append u v hu _ ih =>
      rcases mem_stringPiece.mp hu with ⟨c, ⟨hquote, hbackslash, hnewline⟩, rfl⟩ | ⟨c, hc, rfl⟩
      · rw [List.append_assoc, List.singleton_append, stringBody_plain hbackslash, if_neg (by simp [*]), ih,
          List.length_append, List.length_singleton, Nat.add_assoc]
      · rw [List.append_assoc, List.cons_append, List.singleton_append, stringBody_escape, if_neg hc, ih,
          List.length_append, Nat.add_assoc]
        rfl

theorem take_stringBody_mem (cs : List Char) : cs.take (stringBody cs) ∈ stringPiece∗ := by
  fun_induction stringBody cs with
  | case1 cs => exact Language.nil_mem_kstar _
  | case2 c cs hc ih =>
      rw [Nat.add_comm, List.take_succ_cons, List.take_succ_cons]
      exact append_mem_kstar (u := ['\\', c]) (mem_stringPiece.mpr (.inr ⟨c, hc, rfl⟩)) ih
  | case3 c cs hlone hstop => exact Language.nil_mem_kstar _
  | case4 c cs hlone hgo ih =>
      rw [Nat.add_comm, List.take_succ_cons]
      exact append_mem_kstar (u := [c]) (mem_stringPiece.mpr (.inl ⟨c, by grind, rfl⟩)) ih
  | case5 => exact Language.nil_mem_kstar _

theorem length_le_stringBody {w cs : List Char} (hw : w ∈ stringPiece∗) (hbegins : w <+: cs) :
    w.length ≤ stringBody cs := by
  obtain ⟨z, rfl⟩ := hbegins
  rw [stringBody_append_of_mem hw]
  exact Nat.le_add_right _ _

theorem mem_language_string {w : List Char} :
    w ∈ TokenKind.string.language ↔ ∃ v ∈ stringPiece∗, w = '"' :: (v ++ ['"']) := by
  rw [TokenKind.language, mem_text_mul]
  constructor
  · rintro ⟨_, ⟨v, hv, _, rfl, rfl⟩, rfl⟩
    exact ⟨v, hv, rfl⟩
  · rintro ⟨v, hv, rfl⟩
    exact ⟨_, ⟨v, hv, _, rfl, rfl⟩, rfl⟩

theorem longest_string : Longest TokenKind.string.language string where
  mem cs hne := by
    rw [string.eq_def] at hne ⊢
    split at hne
    · next ds =>
        split at hne
        · next hquote =>
            have hlast : ds.take (stringBody ds + 1) = ds.take (stringBody ds) ++ ['"'] := by
              rw [List.take_add_one, ← List.head?_drop, hquote]
              rfl
            rw [if_pos hquote, List.take_succ_cons, hlast]
            exact mem_language_string.mpr ⟨_, take_stringBody_mem ds, rfl⟩
        · exact absurd rfl hne
    · exact absurd rfl hne
  le {cs w} hw hbegins := by
    obtain ⟨v, hv, rfl⟩ := mem_language_string.mp hw
    obtain ⟨z, rfl⟩ := hbegins
    have hbody : stringBody (v ++ '"' :: z) = v.length := by
      rw [stringBody_append_of_mem hv, stringBody_plain (by decide), if_pos (.inl rfl), Nat.add_zero]
    rw [List.cons_append, List.append_assoc, List.singleton_append, string, hbody, List.drop_left,
      List.head?_cons, if_pos rfl, List.length_cons, List.length_append, List.length_singleton]

/-! Line comments -/

theorem mem_linePiece {u : List Char} : u ∈ linePiece ↔ (∃ c, c ≠ '\n' ∧ u = [c]) ∨ u = ['\\', '\n'] := by
  simp only [linePiece, Language.mem_add, mem_noneOf]
  exact or_congr (by simp) Iff.rfl

theorem head_ne_newline {v : List Char} (hv : v ∈ linePiece∗) : v.head? ≠ some '\n' := by
  rcases mem_kstar_cases.mp hv with rfl | ⟨u, hu, v, -, rfl⟩
  · exact Option.some_ne_none _ ∘ Eq.symm
  · rcases mem_linePiece.mp hu with ⟨c, hc, rfl⟩ | rfl
    · simpa using hc
    · simp

theorem lineTail_cons_of_ne {c : Char} {cs : List Char} (hc : c ≠ '\n') (hcs : cs.head? ≠ some '\n') :
    lineTail (c :: cs) = 1 + lineTail cs := by
  rw [lineTail, if_neg hc]
  rintro ds rfl rfl
  exact hcs rfl

theorem lineTail_cons_pos {c : Char} (hc : c ≠ '\n') (cs : List Char) : 1 ≤ lineTail (c :: cs) := by
  rw [lineTail.eq_def]
  grind

theorem length_le_lineTail {w cs : List Char} (hw : w ∈ linePiece∗) (hbegins : w <+: cs) :
    w.length ≤ lineTail cs := by
  obtain ⟨z, rfl⟩ := hbegins
  induction hw using kstar_induction with
  | nil => exact Nat.zero_le _
  | append u v hu hv ih =>
      rcases mem_linePiece.mp hu with ⟨c, hc, rfl⟩ | rfl
      · change v.length + 1 ≤ lineTail (c :: (v ++ z))
        -- The pieces need not be those that the reach counts: a backslash may be one in front of a newline.
        cases v with
        | nil => exact lineTail_cons_pos hc z
        | cons d v =>
            rw [lineTail_cons_of_ne hc (by simpa using head_ne_newline hv), Nat.add_comm]
            exact Nat.add_le_add_left ih 1
      · change v.length + 2 ≤ lineTail ('\\' :: '\n' :: (v ++ z))
        rw [lineTail_escape, Nat.add_comm]
        exact Nat.add_le_add_left ih 2

theorem take_lineTail_mem (cs : List Char) : cs.take (lineTail cs) ∈ linePiece∗ := by
  fun_induction lineTail cs with
  | case1 cs ih =>
      rw [Nat.add_comm, List.take_succ_cons, List.take_succ_cons]
      exact append_mem_kstar (u := ['\\', '\n']) (mem_linePiece.mpr (.inr rfl)) ih
  | case2 cs hlone => exact Language.nil_mem_kstar _
  | case3 c cs hlone hc ih =>
      rw [Nat.add_comm, List.take_succ_cons]
      exact append_mem_kstar (u := [c]) (mem_linePiece.mpr (.inl ⟨c, hc, rfl⟩)) ih
  | case4 => exact Language.nil_mem_kstar _

theorem longest_lineTail : Longest linePiece∗ lineTail :=
  ⟨fun cs _ => take_lineTail_mem cs, length_le_lineTail⟩

theorem longest_lineComment : Longest (TokenKind.comment .line).language lineComment := by
  refine longest_lineTail.text_mul (Language.nil_mem_kstar _) (fun cs => ?_) fun cs hcs => ?_
  · change lineComment ('/' :: '/' :: cs) = _
    rw [lineComment]
    rfl
  · rw [lineComment]
    rintro ds rfl
    exact hcs ⟨ds, rfl⟩

/-- What may follow the three slashes of a documentation comment: pieces of a line, the first no slash. -/
theorem mem_docLineTail {w : List Char} :
    w ∈ 1 + (noneOf ['/', '\n'] + text "\\\n") * linePiece∗ ↔ w ∈ linePiece∗ ∧ w.head? ≠ some '/' := by
  rw [Language.mem_add, Language.mem_one]
  constructor
  · rintro (rfl | ⟨u, hu, v, hv, rfl⟩)
    · exact ⟨Language.nil_mem_kstar _, by simp⟩
    · rcases hu with hu | rfl
      · obtain ⟨c, hc, rfl⟩ := mem_noneOf.mp hu
        rw [List.mem_cons, List.mem_singleton, not_or] at hc
        exact ⟨append_mem_kstar (mem_linePiece.mpr (.inl ⟨c, hc.2, rfl⟩)) hv, by simpa using hc.1⟩
      · exact ⟨append_mem_kstar (mem_linePiece.mpr (.inr rfl)) hv, by simp⟩
  · rintro ⟨hw, hhead⟩
    rcases mem_kstar_cases.mp hw with rfl | ⟨u, hu, v, hv, rfl⟩
    · exact .inl rfl
    · refine .inr ⟨u, ?_, v, hv, rfl⟩
      rcases mem_linePiece.mp hu with ⟨c, hc, rfl⟩ | rfl
      · exact .inl (mem_noneOf.mpr ⟨c, by simpa [hc] using hhead, rfl⟩)
      · exact .inr rfl

theorem longest_docLineTail : Longest (1 + (noneOf ['/', '\n'] + text "\\\n") * linePiece∗)
    fun cs => if cs.head? = some '/' then 0 else lineTail cs where
  mem cs hne := by
    split at hne
    · exact absurd rfl hne
    · next hhead =>
        rw [if_neg hhead]
        refine mem_docLineTail.mpr ⟨take_lineTail_mem cs, ?_⟩
        rwa [List.head?_take, if_neg hne]
  le {cs w} hw hbegins := by
    obtain ⟨hw, hhead⟩ := mem_docLineTail.mp hw
    cases w with
    | nil => exact Nat.zero_le _
    | cons c w =>
        obtain ⟨z, rfl⟩ := hbegins
        rw [if_neg (show ((c :: w) ++ z).head? ≠ some '/' from hhead)]
        exact length_le_lineTail hw (List.prefix_append _ z)

theorem longest_docLineComment : Longest (TokenKind.comment .docLine).language docLineComment := by
  refine longest_docLineTail.text_mul ?_ (fun cs => ?_) fun cs hcs => ?_
  · exact mem_docLineTail.mpr ⟨Language.nil_mem_kstar _, by simp⟩
  · exact docLineComment_cons cs
  · rw [docLineComment]
    · rintro ds rfl
      exact hcs ⟨'/' :: ds, rfl⟩
    · rintro ds rfl
      exact hcs ⟨ds, rfl⟩

/-! Block comments -/

theorem beforeClose_append_close {body : List Char} (h : ¬ "*/".toList <:+: body ++ ['*']) (z : List Char) :
    beforeClose? (body ++ '*' :: '/' :: z) = some body.length := by
  induction body with
  | nil => rw [List.nil_append, beforeClose?, List.length_nil]
  | cons c body ih =>
      rw [List.cons_append, List.infix_cons_iff, not_or] at h
      have hopen : ∀ ds, c = '*' → body ++ '*' :: '/' :: z = '/' :: ds → False := by
        rintro ds rfl hslash
        cases body with
        | nil => cases hslash
        | cons d body =>
            obtain ⟨rfl, -⟩ := List.cons.inj hslash
            exact h.1 ⟨body ++ ['*'], rfl⟩
      rw [List.cons_append, beforeClose?.eq_2 _ _ hopen, ih h.2]
      rfl

theorem exists_body_of_beforeClose {cs : List Char} {n : Nat} (h : beforeClose? cs = some n) :
    ∃ body z, cs = body ++ '*' :: '/' :: z ∧ body.length = n ∧ ¬ "*/".toList <:+: body ++ ['*'] := by
  fun_induction beforeClose? cs generalizing n with
  | case1 cs =>
      cases h
      exact ⟨[], cs, rfl, rfl, fun hinfix => absurd hinfix.length_le (by decide)⟩
  | case2 c cs hopen ih =>
      obtain ⟨m, hm, rfl⟩ := Option.map_eq_some_iff.mp h
      obtain ⟨body, z, rfl, rfl, hinfix⟩ := ih hm
      refine ⟨c :: body, z, rfl, rfl, ?_⟩
      rw [List.cons_append, List.infix_cons_iff, not_or]
      refine ⟨?_, hinfix⟩
      rintro ⟨y, hy⟩
      cases body with
      | nil => cases hy
      | cons d body =>
          cases hy
          exact hopen _ rfl rfl
  | case3 => cases h

theorem opensDoc_append_close {body : List Char} (h : ¬ "*/".toList <:+: body ++ ['*']) (z : List Char) :
    opensDoc (body ++ '*' :: '/' :: z) = decide (body.head? = some '*') := by
  match body with
  | [] => rfl
  | [c] =>
      rw [List.singleton_append, opensDoc_cons_cons]
      simp [beq_eq_decide]
  | c :: d :: body =>
      have hclose : c = '*' → d ≠ '/' := by
        rintro rfl rfl
        exact h ⟨[], body ++ ['*'], rfl⟩
      rw [List.cons_append, List.cons_append, opensDoc_cons_cons]
      by_cases hc : c = '*' <;> simp_all

theorem longest_blockComment (doc : Bool) : Longest (Grammar.blockComment doc) (blockComment doc) where
  mem cs hne := by
    rw [blockComment.eq_def] at hne ⊢
    split at hne
    · next ds =>
        cases hclose : beforeClose? ds with
        | none => simp [hclose] at hne
        | some n =>
            obtain ⟨body, z, rfl, rfl, hinfix⟩ := exists_body_of_beforeClose hclose
            rw [hclose] at hne
            dsimp only at hne ⊢
            split at hne
            · next hdoc =>
                rw [if_pos hdoc, List.take_succ_cons, List.take_succ_cons, List.take_length_add_append]
                exact ⟨body, rfl, hinfix, by rw [← opensDoc_append_close hinfix z, hdoc]⟩
            · exact absurd rfl hne
    · exact absurd rfl hne
  le {cs w} hw hbegins := by
    obtain ⟨body, rfl, hinfix, hdoc⟩ := hw
    obtain ⟨z, rfl⟩ := hbegins
    have hcs : "/*".toList ++ (body ++ "*/".toList) ++ z = '/' :: '*' :: (body ++ '*' :: '/' :: z) := by simp
    rw [hcs, blockComment, beforeClose_append_close hinfix]
    dsimp only
    rw [opensDoc_append_close hinfix, if_pos hdoc]
    simp

end Lexeme

theorem Mark.mem_all (m : Mark) : m ∈ Mark.all := by cases m <;> decide

namespace LexicalClass

theorem longest_of_mem_all {cls : LexicalClass} (h : cls ∈ all) :
    Lexeme.Longest cls.kind.language cls.reach := by
  rw [all, List.mem_append] at h
  rcases h with h | h
  · simp only [List.mem_cons, List.not_mem_nil, or_false] at h
    rcases h with rfl | rfl | rfl | rfl | rfl | rfl | rfl | rfl | rfl | rfl | rfl
    · exact Lexeme.longest_docLineComment
    · exact Lexeme.longest_lineComment
    · exact Lexeme.longest_blockComment true
    · exact Lexeme.longest_blockComment false
    · exact Lexeme.longest_word
    · exact Lexeme.longest_systemWord
    · exact Lexeme.longest_directive
    · exact Lexeme.longest_number
    · exact Lexeme.longest_based
    · exact Lexeme.longest_fill
    · exact Lexeme.longest_string
  · obtain ⟨mark, -, rfl⟩ := List.mem_map.mp h
    exact Lexeme.longest_exactly mark.text

/-- Every kind of token with a rule has a lexical class. -/
theorem exists_mem_all {kind : TokenKind} (h : kind ≠ .other) : ∃ cls ∈ all, cls.kind = kind := by
  cases kind with
  | other => exact absurd rfl h
  | mark m => exact ⟨_, List.mem_append_right _ (List.mem_map_of_mem m.mem_all), rfl⟩
  | comment kind => cases kind <;> simp [all]
  | _ => simp [all]

variable {cs : List Char} {classes : List LexicalClass}

theorem reach_le_furthest {cls : LexicalClass} (h : cls ∈ classes) :
    cls.reach cs ≤ (furthest cs classes).2 := by
  induction classes with
  | nil => cases h
  | cons first rest ih =>
      rw [furthest]
      rcases List.mem_cons.mp h with rfl | h
      · split <;> omega
      · have := ih h
        split
        · next hle => exact Nat.le_trans this hle
        · exact this

theorem exists_of_furthest (h : (furthest cs classes).2 ≠ 0) :
    ∃ cls ∈ classes, cls.kind = (furthest cs classes).1 ∧ cls.reach cs = (furthest cs classes).2 := by
  induction classes with
  | nil => exact absurd rfl h
  | cons first rest ih =>
      rw [furthest] at h ⊢
      split at h
      · next hle =>
          rw [if_pos hle]
          exact ⟨first, List.mem_cons_self, rfl, rfl⟩
      · next hle =>
          rw [if_neg hle]
          obtain ⟨cls, hmem, hcls⟩ := ih h
          exact ⟨cls, List.mem_cons_of_mem first hmem, hcls⟩

/-- Documentation to the end of a line counts where no class reaches further. -/
theorem furthest_kind_of_docLine (h : (furthest cs all).2 ≤ Lexeme.docLineComment cs) :
    (furthest cs all).1 = .comment .docLine := by
  obtain ⟨others, hall⟩ : ∃ others, all = ⟨.comment .docLine, Lexeme.docLineComment⟩ :: others := ⟨_, rfl⟩
  rw [hall, furthest] at h ⊢
  split at h
  · next hle => rw [if_pos hle]
  · next hle => exact absurd h hle

end LexicalClass

theorem TokenKind.nil_notMem_language (kind : TokenKind) : [] ∉ kind.language := by
  have hdigit : [] ∉ TokenKind.number.language := by
    rintro ⟨_, ⟨c, -, rfl⟩, v, -, h⟩
    cases h
  have hblock (doc : Bool) : [] ∉ Grammar.blockComment doc := by
    rintro ⟨body, h, -⟩
    cases h
  cases kind with
  | comment kind =>
      cases kind with
      | docBlock => exact hblock true
      | block => exact hblock false
      | docLine => exact nil_notMem_text_mul (by decide)
      | line => exact nil_notMem_text_mul (by decide)
  | word => exact Lexeme.nil_notMem_word
  | number => exact hdigit
  | based =>
      intro h
      obtain ⟨base, h⟩ := mem_language_based.mp h
      obtain ⟨ds, letter, vs, -, -, -, h⟩ := Lexeme.mem_based.mp h
      exact absurd h.symm (List.append_ne_nil_of_right_ne_nil _ (List.cons_ne_nil _ _))
  | mark m => cases m <;> exact fun h => absurd (show [] = _ from h) (by decide)
  | other => exact Language.notMem_zero _
  | _ => exact nil_notMem_text_mul (by decide)

namespace Token

/-- How much a token takes where no rule applies: the opening mark of a block comment that is not closed, an
opening quote with the longest string body behind it, or else one character. -/
inductive IsStray : List Char → List Char → Prop
  | opening {cs : List Char} (hopen : ¬ "*/".toList <:+: cs) : IsStray ("/*".toList ++ cs) "/*".toList
  | quote {cs run : List Char} (hbegins : run <+: cs) (hrun : run ∈ stringPiece∗)
      (hlongest : ∀ v ∈ stringPiece∗, v <+: cs → v.length ≤ run.length) : IsStray ('"' :: cs) ('"' :: run)
  | single {c : Char} {cs : List Char} (hquote : c ≠ '"') (hopening : ¬ "/*".toList <+: c :: cs) :
      IsStray (c :: cs) [c]

/-- What it means for a token of some kind to be the longest match at the start of a text. -/
structure IsLongestMatch (rest : List Char) (kind : TokenKind) (text : List Char) : Prop where
  starts : text <+: rest
  mem : kind ≠ .other → text ∈ kind.language
  longest : ∀ (rule : TokenKind) (w : List Char), w ∈ rule.language → w <+: rest → w.length ≤ text.length
  doc_first : text ∈ (TokenKind.comment .docLine).language → text ∈ (TokenKind.comment .line).language →
    kind = .comment .docLine
  other_iff : kind = .other ↔ ∀ (rule : TokenKind) (w : List Char), w ∈ rule.language → ¬ w <+: rest
  stray : kind = .other → IsStray rest text

end Token

namespace Lexeme

theorem not_infix_of_beforeClose {cs : List Char} (h : beforeClose? cs = none) : ¬ "*/".toList <:+: cs := by
  fun_induction beforeClose? cs with
  | case1 cs => cases h
  | case2 c cs hopen ih =>
      rw [List.infix_cons_iff, not_or]
      refine ⟨?_, ih (Option.map_eq_none_iff.mp h)⟩
      rintro ⟨y, hy⟩
      cases hy
      exact hopen _ rfl rfl
  | case3 => exact fun hinfix => absurd hinfix.length_le (by decide)

variable {cs : List Char}

theorem length_le_furthest {rule : TokenKind} {w : List Char} (hw : w ∈ rule.language) (hbegins : w <+: cs) :
    w.length ≤ (LexicalClass.furthest cs LexicalClass.all).2 := by
  have hother : rule ≠ .other := by
    rintro rfl
    exact Language.notMem_zero w hw
  obtain ⟨cls, hcls, rfl⟩ := LexicalClass.exists_mem_all hother
  exact Nat.le_trans ((LexicalClass.longest_of_mem_all hcls).le hw hbegins)
    (LexicalClass.reach_le_furthest hcls)

/-- Where no class reaches, no rule applies. -/
theorem not_prefix_of_furthest (h : (LexicalClass.furthest cs LexicalClass.all).2 = 0) (rule : TokenKind)
    (w : List Char) (hw : w ∈ rule.language) : ¬ w <+: cs := by
  intro hbegins
  have hle := length_le_furthest hw hbegins
  rw [h, Nat.le_zero, List.length_eq_zero_iff] at hle
  exact rule.nil_notMem_language (hle ▸ hw)

theorem isStray_take (c : Char) (h : (LexicalClass.furthest (c :: cs) LexicalClass.all).2 = 0) :
    Token.IsStray (c :: cs) ((c :: cs).take (stray (c :: cs))) := by
  by_cases hquote : c = '"'
  · subst hquote
    rw [stray, Nat.add_comm, List.take_succ_cons]
    refine .quote (List.take_prefix _ cs) (take_stringBody_mem cs) fun v hv hbegins => ?_
    rw [List.length_take_of_le (stringBody_le_length cs)]
    exact length_le_stringBody hv hbegins
  by_cases hopening : "/*".toList <+: c :: cs
  · obtain ⟨ds, hds⟩ := hopening
    rw [← hds] at h ⊢
    change Token.IsStray _ ("/*".toList ++ ds.take 0)
    rw [List.take_zero, List.append_nil]
    refine .opening ?_
    cases hclose : beforeClose? ds with
    | none => exact not_infix_of_beforeClose hclose
    | some n =>
        -- A comment that is closed would be one of the two styles.
        obtain ⟨body, z, rfl, -, hinfix⟩ := exists_body_of_beforeClose hclose
        have hbegins : "/*".toList ++ (body ++ "*/".toList) <+: "/*".toList ++ (body ++ '*' :: '/' :: z) :=
          ⟨z, by simp⟩
        cases hdoc : decide (body.head? = some '*') with
        | true =>
            exact absurd hbegins
              (not_prefix_of_furthest h (.comment .docBlock) _ ⟨body, rfl, hinfix, hdoc⟩)
        | false =>
            exact absurd hbegins (not_prefix_of_furthest h (.comment .block) _ ⟨body, rfl, hinfix, hdoc⟩)
  · have hone : stray (c :: cs) = 1 := by
      rw [stray]
      · rintro ds hcons
        exact hquote (List.cons.inj hcons).1
      · rintro ds hcons
        exact hopening ⟨ds, hcons.symm⟩
    rw [hone, List.take_succ_cons, List.take_zero]
    exact .single hquote hopening

/-- The first token of a text is the longest match there. -/
theorem first_isLongestMatch (c : Char) (cs : List Char) :
    Token.IsLongestMatch (c :: cs) (first (c :: cs)).1 ((c :: cs).take (first (c :: cs)).2) := by
  have hbegins (n : Nat) : (c :: cs).take n <+: c :: cs := List.take_prefix n _
  by_cases hzero : (LexicalClass.furthest (c :: cs) LexicalClass.all).2 = 0
  · have hfirst : first (c :: cs) = (.other, stray (c :: cs)) := by
      rw [first_eq]
      exact if_pos hzero
    have hnone := not_prefix_of_furthest hzero
    rw [hfirst]
    exact {
      starts := hbegins _
      mem := fun h => absurd rfl h
      longest := fun rule w hw hstarts => absurd hstarts (hnone rule w hw)
      doc_first := fun hdoc _ => absurd (hbegins _) (hnone _ _ hdoc)
      other_iff := ⟨fun _ => hnone, fun _ => rfl⟩
      stray := fun _ => isStray_take c hzero }
  · have hfirst : first (c :: cs) = LexicalClass.furthest (c :: cs) LexicalClass.all := by
      rw [first_eq]
      exact if_neg hzero
    have hle := first_cons_le_length c cs
    have hlongest (rule : TokenKind) (w : List Char) (hw : w ∈ rule.language) (hstarts : w <+: c :: cs) :=
      length_le_furthest hw hstarts
    have hdocFirst := @LexicalClass.furthest_kind_of_docLine (c :: cs)
    obtain ⟨cls, hcls, hkind, hreach⟩ := LexicalClass.exists_of_furthest hzero
    have hmem := (LexicalClass.longest_of_mem_all hcls).mem (c :: cs) (by rwa [hreach])
    rw [hfirst] at hle ⊢
    rw [hkind, hreach] at hmem
    generalize LexicalClass.furthest (c :: cs) LexicalClass.all = best at *
    obtain ⟨kind, n⟩ := best
    have hother : kind ≠ .other := by
      rintro rfl
      exact Language.notMem_zero _ hmem
    have hlength : ((c :: cs).take n).length = n := List.length_take_of_le hle
    exact {
      starts := hbegins n
      mem := fun _ => hmem
      longest := fun rule w hw hstarts => hlength.symm ▸ hlongest rule w hw hstarts
      doc_first := fun hdoc _ => hdocFirst (hlength ▸ longest_docLineComment.le hdoc (hbegins n))
      other_iff := ⟨fun h => absurd h hother, fun h => absurd (hbegins n) (h kind _ hmem)⟩
      stray := fun h => absurd h hother }

end Lexeme

namespace Token

/-- A token of a text at `pos`, as it stands at the start of the rest of the text. -/
theorem exists_leading_of_mem {t : Token} {pos : Nat} {cs : List Char} (ht : t ∈ lexFrom pos cs) :
    ∃ a c x rest kind, cs = a ++ c :: (x ++ rest) ∧ Leading c x rest kind ∧
      t = ⟨kind, String.ofList (c :: x),
        ⟨pos + Text.byteSize a, pos + Text.byteSize a + Text.byteSize (c :: x)⟩⟩ := by
  induction pos, cs using lexFrom_induction with
  | nil pos =>
      rw [lexFrom] at ht
      cases ht
  | layout pos d cs hd ih =>
      rw [lexFrom_layout hd] at ht
      obtain ⟨a, c, x, rest, kind, rfl, hlead, rfl⟩ := ih ht
      have hsize : Text.byteSize (d :: a) = d.utf8Size + Text.byteSize a := rfl
      refine ⟨d :: a, c, x, rest, kind, rfl, hlead, ?_⟩
      rw [hsize, ← Nat.add_assoc pos]
  | token pos d y cs kind hlead ih =>
      rw [hlead.lexFrom_eq pos (List.append_nil cs).symm] at ht
      rcases List.mem_cons.mp ht with rfl | ht
      · exact ⟨[], d, y, cs, kind, rfl, hlead, rfl⟩
      · obtain ⟨a, c, x, rest, kind, rfl, hlead', rfl⟩ := ih ht
        refine ⟨d :: y ++ a, c, x, rest, kind, by simp, hlead', ?_⟩
        rw [Text.byteSize_append, ← Nat.add_assoc pos]

/-- The text of a token of some lexical class is one of the texts of its kind. -/
theorem mem_language_of_mem {t : Token} {pos : Nat} {cs : List Char} (ht : t ∈ lexFrom pos cs)
    (hkind : t.kind ≠ .other) : t.text.toList ∈ t.kind.language := by
  obtain ⟨a, c, x, rest, kind, -, hlead, rfl⟩ := exists_leading_of_mem ht
  have hmatch := Lexeme.first_isLongestMatch c (x ++ rest)
  rw [hlead.first_eq rest [] (List.append_nil rest).symm, List.take_succ_cons, List.take_left] at hmatch
  rw [String.toList_ofList]
  exact hmatch.mem hkind

/-- Every token of a source text is the longest match where it starts, and its text is the slice there. -/
theorem lex_isLongestMatch (source : String) (t : Token) (ht : t ∈ lex source) :
    ∃ before rest, source.toList = before ++ rest ∧ t.span.start = Text.byteSize before ∧
      t.span.slice? source = some t.text ∧ IsLongestMatch rest t.kind t.text.toList := by
  obtain ⟨a, c, x, rest, kind, hsource, hlead, rfl⟩ := exists_leading_of_mem ht
  have hfirst := hlead.first_eq rest [] (List.append_nil rest).symm
  have hmatch := Lexeme.first_isLongestMatch c (x ++ rest)
  rw [hfirst, List.take_succ_cons, List.take_left] at hmatch
  refine ⟨a, c :: (x ++ rest), hsource, Nat.zero_add _, span_slice_of_mem_lex ht, ?_⟩
  rwa [String.toList_ofList]

/-- A width in front of an apostrophe that starts no literal is a number. -/
theorem lex_isLongestMatch_width :
    ⟨.number, "12", ⟨0, 2⟩⟩ ∈ lex "12'x" ∧ IsLongestMatch "12'x".toList .number "12".toList := by
  have hmem : ⟨.number, "12", ⟨0, 2⟩⟩ ∈ lex "12'x" := by decide +kernel
  obtain ⟨before, rest, hsource, hstart, -, hmatch⟩ := lex_isLongestMatch "12'x" _ hmem
  refine ⟨hmem, ?_⟩
  cases before with
  | nil => rwa [hsource]
  | cons c before => exact absurd hstart (Nat.ne_of_lt (Text.byteSize_cons_pos c before))

end Token

end BluespecDocs
