import BluespecDocs.Proofs.TokenStarts

/-!
Texts that are one token. The text of a name or of a number, in front of a character that goes on with neither,
is cut off as one token of its kind: no lexical class reaches further, and no other class has that text. So is
the text of a mark that is not the start of another one.
-/

namespace BluespecDocs

namespace TokenKind

/-- Whether texts of a kind can start with a character. -/
def startsWith : TokenKind → Char → Bool
  | comment _, c => c == '/'
  | word, c => Lexeme.isWordStart c
  | systemWord, c => c == '$'
  | directive, c => c == '\x60'
  | number, c => c.isDigit
  | based, c => c.isDigit || c == '\x27'
  | fill, c => c == '\x27'
  | string, c => c == '"'
  | mark m, c => m.text.toList.head? == some c
  | other, _ => false

/-- Whether tokens of a kind are names or numbers. -/
def isAtom : TokenKind → Bool
  | word | number | based | fill => true
  | _ => false

end TokenKind

open Lexeme

namespace LexicalClass

theorem reach_eq_zero {cls : LexicalClass} (hcls : cls ∈ all) {c : Char} (hc : cls.kind.startsWith c = false)
    (cs : List Char) : cls.reach (c :: cs) = 0 := by
  rw [all, List.mem_append] at hcls
  rcases hcls with hcls | hcls
  · simp only [List.mem_cons, List.not_mem_nil, or_false] at hcls
    rcases hcls with rfl | rfl | rfl | rfl | rfl | rfl | rfl | rfl | rfl | rfl | rfl <;>
      simp only [TokenKind.startsWith, beq_eq_false_iff_ne, Bool.or_eq_false_iff] at hc
    · simp [docLineComment, hc]
    · simp [lineComment, hc]
    · simp [blockComment, hc]
    · simp [blockComment, hc]
    · simp [word, hc]
    · simp [systemWord, hc]
    · simp [directive, hc]
    · simp [number, hc]
    · simp [based, hc, baseAndDigits]
    · simp [fill, hc]
    · simp [Lexeme.string, hc]
  · obtain ⟨m, -, rfl⟩ := List.mem_map.mp hcls
    refine if_neg fun hbegins => ?_
    obtain ⟨rest, hrest⟩ := List.isPrefixOf_iff_prefix.mp hbegins
    have hne : m.text.toList ≠ [] := by cases m <;> decide
    have hhead : m.text.toList.head? = some c := by
      rw [← List.head?_append_of_ne_nil _ hne, hrest]
      rfl
    rw [TokenKind.startsWith, hhead, BEq.rfl] at hc
    cases hc

/-- A class is known by the kind of its tokens. -/
theorem eq_of_kind_eq {cls cls' : LexicalClass} (hcls : cls ∈ all) (hcls' : cls' ∈ all)
    (hkind : cls.kind = cls'.kind) : cls = cls' :=
  List.inj_on_of_nodup_map (by decide : (all.map kind).Nodup) hcls hcls' hkind

end LexicalClass

namespace Lexeme

open LexicalClass

/-- Only the classes whose texts start with the character at hand count. -/
theorem first_of_startsWith {cls : LexicalClass} (hcls : cls ∈ all) {c : Char} {cs : List Char}
    (hpos : cls.reach (c :: cs) ≠ 0) (hmax : ∀ other ∈ all, other.kind.startsWith c = true →
      other.kind = cls.kind ∨ other.reach (c :: cs) < cls.reach (c :: cs)) :
    first (c :: cs) = (cls.kind, cls.reach (c :: cs)) := by
  refine first_of_lt hcls hpos fun other hother => ?_
  cases hstarts : other.kind.startsWith c with
  | false =>
      rw [reach_eq_zero hother hstarts]
      exact .inr (Nat.pos_of_ne_zero hpos)
  | true => exact (hmax other hother hstarts).imp_left (eq_of_kind_eq hother hcls)

/-- The character behind a text, if there is one, goes on with neither a name nor a number. -/
def BreaksOff (rest : List Char) : Prop := ∀ c ∈ rest.head?, isWordPart c = false ∧ c ≠ '\x27'

theorem breaksOff_nil : BreaksOff [] := fun _ hc => nomatch hc

theorem breaksOff_cons {c : Char} (hc : (isWordPart c || c == '\x27') = false) (rest : List Char) :
    BreaksOff (c :: rest) := by
  rintro d ⟨⟩
  exact ⟨(Bool.or_eq_false_iff.mp hc).1, beq_eq_false_iff_ne.mp (Bool.or_eq_false_iff.mp hc).2⟩

end Lexeme

namespace Grammar

variable {ranges ranges' : List (Char × Char)} {c : Char}

theorem inRanges_iff : inRanges ranges c = true ↔ ∃ range ∈ ranges, range.1 ≤ c ∧ c ≤ range.2 := by
  simp only [inRanges, List.any_eq_true, decide_eq_true_eq]

theorem inRanges_mono
    (h : (ranges.all fun range => ranges'.any fun range' => range'.1 ≤ range.1 ∧ range.2 ≤ range'.2) = true)
    (hc : inRanges ranges c = true) : inRanges ranges' c = true := by
  obtain ⟨range, hmem, hlow, hhigh⟩ := inRanges_iff.mp hc
  obtain ⟨range', hmem', hwithin⟩ := List.any_eq_true.mp (List.all_eq_true.mp h range hmem)
  have hwithin := of_decide_eq_true hwithin
  exact inRanges_iff.mpr ⟨range', hmem', Char.le_trans hwithin.1 hlow, Char.le_trans hhigh hwithin.2⟩

theorem inRanges_disjoint
    (h : (ranges.all fun range => ranges'.all fun range' => range.2 < range'.1 ∨ range'.2 < range.1) = true)
    (hc : inRanges ranges c = true) : inRanges ranges' c = false := by
  refine Bool.eq_false_iff.mpr fun hc' => ?_
  obtain ⟨range, hmem, hlow, hhigh⟩ := inRanges_iff.mp hc
  obtain ⟨range', hmem', hlow', hhigh'⟩ := inRanges_iff.mp hc'
  rcases of_decide_eq_true (List.all_eq_true.mp (List.all_eq_true.mp h range hmem) range' hmem') with hlt | hlt
  · exact absurd (Char.le_trans hlow' hhigh) (Char.not_le.mpr hlt)
  · exact absurd (Char.le_trans hlow hhigh') (Char.not_le.mpr hlt)

open Computability

theorem forall_of_mem_one_mul_kstar {first rest : Char → Bool} {p : Char → Prop} {w : List Char}
    (hw : w ∈ one first * (one rest)∗) (hfirst : ∀ c, first c = true → p c) (hrest : ∀ c, rest c = true → p c) :
    ∀ c ∈ w, p c := by
  obtain ⟨c, v, hc, hv, rfl⟩ := mem_one_mul.mp hw
  exact List.forall_mem_cons.mpr ⟨hfirst c hc, fun d hd => hrest d (mem_one_kstar.mp hv d hd)⟩

theorem not_mem_of_mem_one_mul_kstar {first rest : Char → Bool} {w : List Char} (hw : w ∈ one first * (one rest)∗)
    (hfirst : first c = false) (hrest : rest c = false) : c ∉ w := by
  have hne (test : Char → Bool) (htest : test c = false) (d : Char) (hd : test d = true) : d ≠ c := by
    rintro rfl
    rw [htest] at hd
    cases hd
  exact fun hmem => forall_of_mem_one_mul_kstar hw (hne first hfirst) (hne rest hrest) c hmem rfl

end Grammar

namespace TokenKind

open Grammar

variable {kind kind' : TokenKind} {w : List Char}

theorem ne_other_of_isAtom (hkind : kind.isAtom = true) : kind ≠ .other := by
  rintro rfl
  cases hkind

theorem isWordPart_of_inRanges {ranges : List (Char × Char)} (h : (ranges.all fun range =>
      [('A', 'Z'), ('a', 'z'), ('0', '9'), ('_', '_'), ('$', '$')].any fun range' =>
        range'.1 ≤ range.1 ∧ range.2 ≤ range'.2) = true)
    {c : Char} (hc : inRanges ranges c = true) : isWordPart c = true := by
  rw [isWordPart_eq]
  exact inRanges_mono h hc

/-- Names and numbers have no characters but those of words and apostrophes. -/
theorem isWordPart_or_apostrophe (hkind : kind.isAtom = true) (hw : w ∈ kind.language) :
    ∀ c ∈ w, isWordPart c = true ∨ c = '\x27' := by
  cases kind with
  | word =>
      exact forall_of_mem_one_mul_kstar hw (fun c hc => .inl (isWordPart_of_inRanges (by decide) hc))
        fun c hc => .inl (isWordPart_of_inRanges (by decide) hc)
  | number =>
      exact forall_of_mem_one_mul_kstar hw (fun c hc => .inl (isWordPart_of_inRanges (by decide) hc))
        fun c hc => .inl (isWordPart_of_inRanges (by decide) hc)
  | based =>
      obtain ⟨base, hbase⟩ := mem_language_based.mp hw
      obtain ⟨ds, letter, vs, hds, hletter, ⟨-, hvs⟩, rfl⟩ := mem_based.mp hbase
      rw [List.forall_mem_append, List.forall_mem_cons, List.forall_mem_cons]
      refine ⟨fun c hc => .inl ?_, .inr rfl, .inl ?_, fun c hc => .inl ?_⟩
      · have hdigit := hds c hc
        rw [isDigit_eq] at hdigit
        exact isWordPart_of_inRanges (by decide) hdigit
      · exact isWordPart_of_inRanges (by cases base <;> decide) hletter
      · exact isWordPart_of_inRanges (by cases base <;> decide) (hvs c hc)
  | fill =>
      obtain ⟨v, ⟨c, hc, rfl⟩, rfl⟩ := mem_text_mul.mp hw
      exact List.forall_mem_cons.mpr ⟨.inr rfl, List.forall_mem_singleton.mpr
        (.inl (isWordPart_of_inRanges (by decide) hc))⟩
  | _ => cases hkind

/-- The kind of name or number that a text is. -/
def ofAtom (w : List Char) : TokenKind :=
  if '\x27' ∈ w then if w.length = 2 then fill else based
  else if w.head?.any Char.isDigit then number else word

theorem ofAtom_eq (hkind : kind.isAtom = true) (hw : w ∈ kind.language) : ofAtom w = kind := by
  cases kind with
  | word =>
      have hquote : '\x27' ∉ w := not_mem_of_mem_one_mul_kstar hw (by decide) (by decide)
      obtain ⟨c, v, hc, -, rfl⟩ := mem_one_mul.mp hw
      have hdigit : c.isDigit = false := by
        rw [isDigit_eq]
        exact inRanges_disjoint (by decide) hc
      rw [ofAtom, if_neg hquote, List.head?_cons, Option.any_some, hdigit]
      rfl
  | number =>
      have hquote : '\x27' ∉ w := not_mem_of_mem_one_mul_kstar hw (by decide) (by decide)
      obtain ⟨c, v, hc, -, rfl⟩ := mem_one_mul.mp hw
      rw [← isDigit_eq] at hc
      rw [ofAtom, if_neg hquote, List.head?_cons, Option.any_some, hc]
      rfl
  | based =>
      obtain ⟨base, hbase⟩ := mem_language_based.mp hw
      obtain ⟨ds, letter, vs, -, -, ⟨hne, -⟩, rfl⟩ := mem_based.mp hbase
      have hpos := List.length_pos_of_ne_nil hne
      rw [ofAtom, if_pos (List.mem_append_right _ List.mem_cons_self), if_neg]
      rw [List.length_append, List.length_cons, List.length_cons]
      omega
  | fill =>
      obtain ⟨v, ⟨c, -, rfl⟩, rfl⟩ := mem_text_mul.mp hw
      rw [ofAtom, if_pos (List.mem_append_left _ (by decide))]
      rfl
  | _ => cases hkind

end TokenKind

namespace Lexeme

open LexicalClass

/-- A text of names and numbers does not run over a character that breaks it off. -/
theorem length_le_of_breaksOff {u w rest : List Char} (hu : ∀ c ∈ u, isWordPart c = true ∨ c = '\x27')
    (hrest : BreaksOff rest) (hbegins : u <+: w ++ rest) : u.length ≤ w.length := by
  rcases List.prefix_or_prefix_of_prefix hbegins (List.prefix_append w rest) with hshort | ⟨v, rfl⟩
  · exact hshort.length_le
  · rw [List.prefix_append_right_inj] at hbegins
    cases v with
    | nil => rw [List.append_nil]
    | cons c v =>
        obtain ⟨r, rfl⟩ := hbegins
        obtain ⟨hpart, hquote⟩ := hrest c rfl
        rcases hu c (List.mem_append_right w List.mem_cons_self) with h | h
        · rw [hpart] at h
          cases h
        · exact absurd h hquote

theorem isAtom_of_startsWith {kind kind' : TokenKind} {c : Char} (hkind : kind.isAtom = true)
    (hstarts : kind.startsWith c = true) (hstarts' : kind'.startsWith c = true) : kind'.isAtom = true := by
  have hstart : (isWordStart c || c.isDigit || c == '\x27') = true := by
    cases kind with
    | word => rw [show isWordStart c = true from hstarts, Bool.true_or, Bool.true_or]
    | number => rw [show c.isDigit = true from hstarts, Bool.or_true, Bool.true_or]
    | based =>
        rw [Bool.or_assoc, show (c.isDigit || c == '\x27') = true from hstarts, Bool.or_true]
    | fill => rw [show (c == '\x27') = true from hstarts, Bool.or_true]
    | _ => cases hkind
  cases kind' with
  | word => rfl
  | number => rfl
  | based => rfl
  | fill => rfl
  | mark m =>
      have hhead : m.text.toList.head? = some c := eq_of_beq hstarts'
      have hmark : (m.text.toList.head?.any fun c => isWordStart c || c.isDigit || c == '\x27') = false := by
        cases m <;> decide
      rw [hhead, Option.any_some, hstart] at hmark
      cases hmark
  | other => cases hstarts'
  | _ =>
      obtain rfl := eq_of_beq hstarts'
      exact absurd hstart (by decide)

/-- The text of a name or number that is broken off is one token. -/
theorem first_atom {kind : TokenKind} (hkind : kind.isAtom = true) {w rest : List Char} (hw : w ∈ kind.language)
    (hrest : BreaksOff rest) : first (w ++ rest) = (kind, w.length) := by
  obtain ⟨cls, hcls, rfl⟩ := exists_mem_all (TokenKind.ne_other_of_isAtom hkind)
  have hne : w ≠ [] := by
    rintro rfl
    exact cls.kind.nil_notMem_language hw
  have hle : ∀ other ∈ all, other.kind.isAtom = true → other.reach (w ++ rest) ≤ w.length := by
    intro other hother hatom
    by_cases hzero : other.reach (w ++ rest) = 0
    · rw [hzero]
      exact Nat.zero_le _
    · have hmem := (longest_of_mem_all hother).mem _ hzero
      have hlength := length_le_of_breaksOff (TokenKind.isWordPart_or_apostrophe hatom hmem) hrest
        (List.take_prefix _ _)
      rwa [List.length_take_of_le ((local_of_mem_all hother).le_length _)] at hlength
  have hreach : cls.reach (w ++ rest) = w.length :=
    Nat.le_antisymm (hle cls hcls hkind) ((longest_of_mem_all hcls).le hw (List.prefix_append w rest))
  obtain ⟨c, x, rfl⟩ := List.exists_cons_of_ne_nil hne
  rw [List.cons_append] at hreach ⊢
  have hpos : cls.reach (c :: (x ++ rest)) ≠ 0 := by
    rw [hreach]
    exact Nat.succ_ne_zero _
  have hstarts : cls.kind.startsWith c = true := by
    by_contra hstarts
    exact hpos (reach_eq_zero hcls (Bool.eq_false_iff.mpr hstarts) _)
  rw [← hreach]
  refine first_of_startsWith hcls hpos fun other hother hstarts' => ?_
  have hatom := isAtom_of_startsWith hkind hstarts hstarts'
  rcases Nat.lt_or_eq_of_le (hle other hother hatom) with hlt | heq
  · exact .inr (hreach ▸ hlt)
  · -- A class that reaches as far has the same text, and the text tells its kind.
    have hmem := (longest_of_mem_all hother).mem (c :: x ++ rest) (by rw [heq]; exact Nat.succ_ne_zero _)
    rw [heq, List.take_left] at hmem
    exact .inl ((TokenKind.ofAtom_eq hatom hmem).symm.trans (TokenKind.ofAtom_eq hkind hw))

end Lexeme

namespace Mark

/-- Of two marks that start alike one is a colon or a dot and the start of the other. -/
theorem eq_or_length_lt {m m' : Mark} (hcolon : m ≠ .colon) (hdot : m ≠ .dot)
    (hhead : m'.text.toList.head? = m.text.toList.head?) :
    m' = m ∨ m'.text.toList.length < m.text.toList.length := by
  have hall : ∀ m ∈ all, ∀ m' ∈ all, m ≠ colon → m ≠ dot → m'.text.toList.head? = m.text.toList.head? →
      m' = m ∨ m'.text.toList.length < m.text.toList.length := by decide
  exact hall m m.mem_all m' m'.mem_all hcolon hdot hhead

theorem not_startsWith_head (m : Mark) {kind : TokenKind} (hkind : ∀ m', kind ≠ .mark m') :
    m.text.toList.head?.any kind.startsWith = false := by
  cases kind with
  | mark m' => exact absurd rfl (hkind m')
  | _ => cases m <;> rfl

end Mark

namespace Lexeme

open LexicalClass

theorem length_exactly_le (text : String) (cs : List Char) : exactly text cs ≤ text.toList.length := by
  rw [exactly]
  split
  · exact Nat.le_refl _
  · exact Nat.zero_le _

/-- A mark that is not the start of another one is a token wherever it stands. -/
theorem first_mark {m : Mark} (hcolon : m ≠ .colon) (hdot : m ≠ .dot) (cs : List Char) :
    first (m.text.toList ++ cs) = (.mark m, m.text.toList.length) := by
  have hcls (m' : Mark) : ⟨.mark m', exactly m'.text⟩ ∈ all :=
    List.mem_append_right _ (List.mem_map_of_mem m'.mem_all)
  have hreach : exactly m.text (m.text.toList ++ cs) = m.text.toList.length :=
    if_pos (List.isPrefixOf_iff_prefix.mpr (List.prefix_append _ _))
  obtain ⟨c, x, hx⟩ : ∃ c x, m.text.toList = c :: x := by cases m <;> exact ⟨_, _, rfl⟩
  have hpos : exactly m.text (m.text.toList ++ cs) ≠ 0 := by
    rw [hreach, hx]
    exact Nat.succ_ne_zero _
  rw [← hreach]
  rw [hx, List.cons_append] at hpos ⊢
  refine first_of_startsWith (hcls m) hpos fun other hother hstarts => ?_
  by_cases hkind : ∃ m', other.kind = .mark m'
  · obtain ⟨m', hkind⟩ := hkind
    obtain rfl := eq_of_kind_eq hother (hcls m') hkind
    have hhead : m'.text.toList.head? = m.text.toList.head? := by
      rw [hx]
      exact eq_of_beq hstarts
    rcases Mark.eq_or_length_lt hcolon hdot hhead with rfl | hlt
    · exact .inl rfl
    · refine .inr ((length_exactly_le _ _).trans_lt ?_)
      dsimp only
      rw [← List.cons_append, ← hx, hreach]
      exact hlt
  · have hnone := m.not_startsWith_head fun m' hm' => hkind ⟨m', hm'⟩
    rw [hx, List.head?_cons, Option.any_some, hstarts] at hnone
    cases hnone

end Lexeme

namespace Token

open Text

theorem lexFrom_of_first {w rest : List Char} {kind : TokenKind} (hw : ∃ c x, w = c :: x ∧ isLayout c = false)
    (hfirst : first (w ++ rest) = (kind, w.length)) (pos : Nat) :
    lexFrom pos (w ++ rest) =
      ⟨kind, String.ofList w, ⟨pos, pos + byteSize w⟩⟩ :: lexFrom (pos + byteSize w) rest := by
  obtain ⟨c, x, rfl, hc⟩ := hw
  exact lexFrom_token hc hfirst pos

theorem not_isLayout_of_isWordPart {c : Char} (hc : isWordPart c = true ∨ c = '\x27') : isLayout c = false := by
  refine Bool.eq_false_iff.mpr fun hlayout => ?_
  have hnone : ∀ g ∈ layoutChars, isWordPart g = false ∧ g ≠ '\x27' := forall_layoutChars.mpr (by decide)
  obtain ⟨hpart, hquote⟩ := hnone c (isLayout_iff.mp hlayout)
  rcases hc with h | h
  · rw [hpart] at h
    cases h
  · exact hquote h

theorem lexFrom_atom {kind : TokenKind} (hkind : kind.isAtom = true) {w rest : List Char} (hw : w ∈ kind.language)
    (hrest : BreaksOff rest) (pos : Nat) :
    lexFrom pos (w ++ rest) =
      ⟨kind, String.ofList w, ⟨pos, pos + byteSize w⟩⟩ :: lexFrom (pos + byteSize w) rest := by
  refine lexFrom_of_first ?_ (first_atom hkind hw hrest) pos
  cases w with
  | nil => exact absurd hw kind.nil_notMem_language
  | cons c x =>
      exact ⟨c, x, rfl, not_isLayout_of_isWordPart
        (TokenKind.isWordPart_or_apostrophe hkind hw c List.mem_cons_self)⟩

theorem lexFrom_mark {m : Mark} (hcolon : m ≠ .colon) (hdot : m ≠ .dot) (rest : List Char) (pos : Nat) :
    lexFrom pos (m.text.toList ++ rest) =
      ⟨.mark m, m.text, ⟨pos, pos + byteSize m.text.toList⟩⟩ ::
        lexFrom (pos + byteSize m.text.toList) rest := by
  have hlex := lexFrom_of_first (by cases m <;> exact ⟨_, _, rfl, rfl⟩) (first_mark hcolon hdot rest) pos
  rwa [String.ofList_toList] at hlex

end Token

end BluespecDocs
