import BluespecDocs.Proofs.BasedLiterals
import BluespecDocs.Proofs.TypeGrammar
import BluespecDocs.Whitespace

/-!
Texts that rules of one token accept. Such a rule accepts a whole text if what stands between the layout at its two
ends is in a certain language, and no other text: anything else makes more than one token, or one of another kind.
-/

open scoped Computability

namespace BluespecDocs

open Grammar

/-- A text without the layout at its ends. -/
def Token.stripLayout (cs : List Char) : List Char := Text.dropEndWhile isLayout (cs.dropWhile isLayout)

namespace Token

variable {a b w cs : List Char}

theorem exists_stripLayout (cs : List Char) : ∃ a b, cs = a ++ (stripLayout cs ++ b) ∧
    (∀ c ∈ a, isLayout c = true) ∧ ∀ c ∈ b, isLayout c = true := by
  refine ⟨cs.takeWhile isLayout, ((cs.dropWhile isLayout).reverse.takeWhile isLayout).reverse, ?_,
    List.all_eq_true.mp List.all_takeWhile, fun c hc => ?_⟩
  · rw [stripLayout, Text.dropEndWhile, ← List.reverse_append, List.takeWhile_append_dropWhile, List.reverse_reverse,
      List.takeWhile_append_dropWhile]
  · exact List.all_eq_true.mp List.all_takeWhile c (List.mem_reverse.mp hc)

theorem dropWhile_eq_self {test : Char → Bool} (hw : ∀ c ∈ w, test c = false) : w.dropWhile test = w := by
  cases w with
  | nil => rfl
  | cons c w => exact List.dropWhile_cons_of_neg (by simp [hw c List.mem_cons_self])

theorem stripLayout_eq (ha : ∀ c ∈ a, isLayout c = true) (hb : ∀ c ∈ b, isLayout c = true)
    (hw : ∀ c ∈ w, isLayout c = false) (hne : w ≠ []) : stripLayout (a ++ (w ++ b)) = w := by
  obtain ⟨c, x, rfl⟩ := List.exists_cons_of_ne_nil hne
  have hfront : (c :: x ++ b).dropWhile isLayout = c :: x ++ b :=
    List.dropWhile_cons_of_neg (by simp [hw c List.mem_cons_self])
  rw [stripLayout, List.dropWhile_append_of_pos ha, hfront, Text.dropEndWhile, List.reverse_append,
    List.dropWhile_append_of_pos fun d hd => hb d (List.mem_reverse.mp hd),
    dropWhile_eq_self fun d hd => hw d (List.mem_reverse.mp hd), List.reverse_reverse]

theorem isLayout_of_lexFrom_eq_nil {pos : Nat} (h : lexFrom pos cs = []) : ∀ c ∈ cs, isLayout c = true := by
  induction pos, cs using lexFrom_induction with
  | nil pos => exact List.forall_mem_nil _
  | layout pos d cs hd ih =>
      rw [lexFrom_layout hd] at h
      exact List.forall_mem_cons.mpr ⟨hd, ih h⟩
  | token pos d x rest kind hlead ih =>
      rw [hlead.lexFrom_eq pos (List.append_nil rest).symm] at h
      cases h

theorem exists_of_lexFrom_eq_singleton {pos : Nat} {t : Token} (h : lexFrom pos cs = [t]) :
    ∃ a b, cs = a ++ (t.text.toList ++ b) ∧ (∀ c ∈ a, isLayout c = true) ∧ ∀ c ∈ b, isLayout c = true := by
  induction pos, cs using lexFrom_induction with
  | nil pos =>
      rw [lexFrom] at h
      cases h
  | layout pos d cs hd ih =>
      rw [lexFrom_layout hd] at h
      obtain ⟨a, b, rfl, ha, hb⟩ := ih h
      exact ⟨d :: a, b, rfl, List.forall_mem_cons.mpr ⟨hd, ha⟩, hb⟩
  | token pos d x rest kind hlead ih =>
      rw [hlead.lexFrom_eq pos (List.append_nil rest).symm] at h
      obtain ⟨rfl, hrest⟩ := List.cons.inj h
      refine ⟨[], rest, ?_, List.forall_mem_nil _, isLayout_of_lexFrom_eq_nil hrest⟩
      rw [String.toList_ofList]
      rfl

theorem breaksOff_of_layout (hb : ∀ c ∈ b, isLayout c = true) : Lexeme.BreaksOff b := by
  cases b with
  | nil => exact Lexeme.breaksOff_nil
  | cons c b =>
      refine Lexeme.breaksOff_cons (Bool.eq_false_iff.mpr fun hc => ?_) b
      rw [Bool.or_eq_true, beq_iff_eq] at hc
      exact absurd (hb c List.mem_cons_self) (by rw [not_isLayout_of_isWordPart hc]; exact Bool.false_ne_true)

/-- A text is one name or number, with layout around it, if what stands between the layout is a name or number of that
kind. -/
theorem lex_eq_atom_iff {s : String} {kind : TokenKind} (hkind : kind.isAtom = true) :
    (∃ t, lex s = [t] ∧ t.kind = kind ∧ t.text.toList = w) ↔
      stripLayout s.toList = w ∧ w ∈ kind.language := by
  constructor
  · rintro ⟨t, hlex, rfl, rfl⟩
    obtain ⟨a, b, hs, ha, hb⟩ := exists_of_lexFrom_eq_singleton hlex
    have ht : t ∈ lex s := hlex ▸ List.mem_cons_self
    have hmem := mem_language_of_mem ht (TokenKind.ne_other_of_isAtom hkind)
    refine ⟨?_, hmem⟩
    rw [hs]
    refine stripLayout_eq ha hb (fun c hc => ?_) fun hnil => t.kind.nil_notMem_language (hnil ▸ hmem)
    exact not_isLayout_of_isWordPart (TokenKind.isWordPart_or_apostrophe hkind hmem c hc)
  · rintro ⟨rfl, hmem⟩
    obtain ⟨a, b, hs, ha, hb⟩ := exists_stripLayout s.toList
    have hrest (pos : Nat) : lexFrom pos b = [] := by
      have hlayouts := lexFrom_layouts hb pos []
      rwa [List.append_nil, lexFrom] at hlayouts
    have hlex := lexFrom_layouts ha 0 (stripLayout s.toList ++ b)
    rw [lexFrom_atom hkind hmem (breaksOff_of_layout hb), hrest, ← hs] at hlex
    exact ⟨_, hlex, rfl, String.toList_ofList⟩

end Token

namespace TokenReader

variable {α : Type} {read : TokenReader α}

theorem only_eq_ok {ts : List Token} {value : α} :
    read.only ts = .ok value ↔ ∃ t, ts = [t] ∧ read t = .ok value := by
  match ts with
  | [] => simp [only, first]
  | t :: rest =>
      cases hread : read t with
      | error mismatch => simp [only, first, hread]
      | ok found => cases rest <;> simp [only, first, hread]

/-- A check behind a reader is a check of what the reader makes of a whole text. -/
theorem only_of_checked {checked : TokenReader α} {test : α → Prop}
    (h : ∀ t value, checked t = .ok value ↔ read t = .ok value ∧ test value) {ts : List Token} {value : α} :
    checked.only ts = .ok value ↔ read.only ts = .ok value ∧ test value := by
  simp only [only_eq_ok, h]
  constructor
  · rintro ⟨t, hts, hread, htest⟩
    exact ⟨⟨t, hts, hread⟩, htest⟩
  · rintro ⟨⟨t, hts, hread⟩, htest⟩
    exact ⟨t, hts, hread, htest⟩

/-- A reader that takes names and numbers only, and does not look at where they stand. -/
structure ReadsAtoms (read : TokenReader α) : Prop where
  isAtom : ∀ t value, read t = .ok value → t.kind.isAtom = true
  anywhere : ∀ kind text span span', read ⟨kind, text, span⟩ = read ⟨kind, text, span'⟩

/-- What such a reader makes of a whole text is what it makes of the name or number between the layout. -/
theorem ReadsAtoms.only_lex (h : ReadsAtoms read) {s : String} {value : α} :
    read.only (Token.lex s) = .ok value ↔
      ∃ kind span, kind.isAtom = true ∧ Token.stripLayout s.toList ∈ kind.language ∧
        read ⟨kind, String.ofList (Token.stripLayout s.toList), span⟩ = .ok value := by
  rw [only_eq_ok]
  constructor
  · rintro ⟨t, hlex, hread⟩
    have hatom := h.isAtom t value hread
    obtain ⟨hstrip, hmem⟩ := (Token.lex_eq_atom_iff hatom).mp ⟨t, hlex, rfl, rfl⟩
    rw [hstrip, String.ofList_toList]
    exact ⟨t.kind, t.span, hatom, hmem, hread⟩
  · rintro ⟨kind, span, hatom, hmem, hread⟩
    obtain ⟨⟨kind', text, span'⟩, hlex, rfl, htext⟩ := (Token.lex_eq_atom_iff hatom).mpr ⟨rfl, hmem⟩
    refine ⟨_, hlex, ?_⟩
    rw [← htext, String.ofList_toList] at hread
    exact (h.anywhere _ _ _ _).trans hread

/-- A reader accepts a text as a whole. -/
def Accepts (read : TokenReader α) (s : String) : Prop := ∃ value, read.only (Token.lex s) = .ok value

end TokenReader

open TokenReader

namespace LetterCase

/-- The ranges of the characters that a name of either case can start with. -/
def startRanges : LetterCase → List (Char × Char)
  | capitalized => [('A', 'Z')]
  | lowercase => [('a', 'z'), ('_', '_')]

theorem isUpper_eq (c : Char) : c.isUpper = inRanges capitalized.startRanges c := by
  change decide ('A' ≤ c ∧ c ≤ 'Z') = inRanges [('A', 'Z')] c
  simp [inRanges]

theorem isLower_or_underscore_eq (c : Char) : (c.isLower || c == '_') = inRanges lowercase.startRanges c := by
  rw [Bool.eq_iff_iff]
  change (decide ('a' ≤ c) && decide (c ≤ 'z') || c == '_') = true ↔ inRanges [('a', 'z'), ('_', '_')] c = true
  simp [inRanges, eq_iff_le]

theorem ofName_eq_some {c : Char} {x : List Char} {found : LetterCase} :
    ofName? (String.ofList (c :: x)) = some found ↔ inRanges found.startRanges c = true := by
  rw [ofName?, String.toList_ofList]
  dsimp only
  rw [isUpper_eq, isLower_or_underscore_eq]
  cases found with
  | capitalized => cases inRanges capitalized.startRanges c <;> cases inRanges lowercase.startRanges c <;> simp
  | lowercase =>
      cases hupper : inRanges capitalized.startRanges c with
      | true =>
          have hlower : inRanges lowercase.startRanges c = false := inRanges_disjoint (by decide) hupper
          simp [hlower]
      | false => cases inRanges lowercase.startRanges c <;> simp

end LetterCase

namespace Identifier

/-- `[A-Z][A-Za-z0-9_$]*` for capitalized names and `[a-z_][A-Za-z0-9_$]*` for the others. -/
def namesIn (wanted : LetterCase) : Language Char := among wanted.startRanges * wordPart∗

theorem cons_mem_namesIn {wanted : LetterCase} {c : Char} {x : List Char} :
    c :: x ∈ namesIn wanted ↔ inRanges wanted.startRanges c = true ∧ x ∈ wordPart∗ := by
  rw [namesIn, among, mem_one_mul]
  constructor
  · rintro ⟨d, y, hd, hy, hcons⟩
    cases hcons
    exact ⟨hd, hy⟩
  · rintro ⟨hc, hx⟩
    exact ⟨c, x, hc, hx, rfl⟩

theorem exists_of_mem_word {w : List Char} (hw : w ∈ Grammar.word) :
    ∃ c x, w = c :: x ∧ x ∈ wordPart∗ ∧ ∃ wanted : LetterCase, inRanges wanted.startRanges c = true := by
  obtain ⟨c, x, hc, hx, rfl⟩ := mem_one_mul.mp hw
  refine ⟨c, x, rfl, hx, ?_⟩
  obtain ⟨range, hmem, hrange⟩ := inRanges_iff.mp hc
  rcases List.mem_cons.mp hmem with rfl | hmem
  · exact ⟨.capitalized, inRanges_iff.mpr ⟨_, List.mem_cons_self, hrange⟩⟩
  · exact ⟨.lowercase, inRanges_iff.mpr ⟨range, hmem, hrange⟩⟩

theorem mem_word_of_mem_namesIn {wanted : LetterCase} {w : List Char} (hw : w ∈ namesIn wanted) :
    w ∈ Grammar.word := by
  obtain ⟨c, x, hc, hx, rfl⟩ := mem_one_mul.mp hw
  exact mem_one_mul.mpr ⟨c, x, inRanges_mono (by cases wanted <;> decide) hc, hx, rfl⟩

theorem ofName_eq_some {w : List Char} (hw : w ∈ Grammar.word) {ident : Identifier} :
    ofName? (String.ofList w) = some ident ↔ w ∈ namesIn ident.letterCase ∧ ident.name = String.ofList w := by
  obtain ⟨c, x, rfl, hx, -⟩ := exists_of_mem_word hw
  rw [ofName?, Option.map_eq_some_iff, cons_mem_namesIn]
  constructor
  · rintro ⟨found, hfound, rfl⟩
    exact ⟨⟨LetterCase.ofName_eq_some.mp hfound, hx⟩, rfl⟩
  · rintro ⟨⟨hc, -⟩, hname⟩
    exact ⟨ident.letterCase, LetterCase.ofName_eq_some.mpr hc, by rw [← hname]⟩

theorem ofToken_readsAtoms : ReadsAtoms ofToken where
  isAtom t ident h := by
    rw [(ofToken_eq_ok.mp h).1]
    rfl
  anywhere _ _ _ _ := rfl

variable {s : String} {ident : Identifier}

theorem only_ofToken_eq_ok : ofToken.only (Token.lex s) = .ok ident ↔
    Token.stripLayout s.toList ∈ namesIn ident.letterCase ∧
      ident.name = String.ofList (Token.stripLayout s.toList) := by
  rw [ofToken_readsAtoms.only_lex]
  constructor
  · rintro ⟨kind, span, -, hmem, hread⟩
    obtain ⟨rfl, hname⟩ := ofToken_eq_ok.mp hread
    exact (ofName_eq_some hmem).mp hname
  · rintro ⟨hmem, hname⟩
    have hword := mem_word_of_mem_namesIn hmem
    exact ⟨.word, ⟨0, 0⟩, rfl, hword, ofToken_eq_ok.mpr ⟨rfl, (ofName_eq_some hword).mpr ⟨hmem, hname⟩⟩⟩

theorem name_of_only (h : ofToken.only (Token.lex s) = .ok ident) :
    ident.name.toList = Token.stripLayout s.toList := by
  rw [(only_ofToken_eq_ok.mp h).2, String.toList_ofList]

theorem only_ofTokenIn_eq_ok {wanted : LetterCase} : (ofTokenIn wanted).only (Token.lex s) = .ok ident ↔
    ofToken.only (Token.lex s) = .ok ident ∧ ident.letterCase = wanted :=
  only_of_checked fun _ _ => ofTokenIn_eq_ok

theorem accepts_ofToken_iff : Accepts ofToken s ↔ Token.stripLayout s.toList ∈ Grammar.word := by
  constructor
  · rintro ⟨ident, hread⟩
    exact mem_word_of_mem_namesIn (only_ofToken_eq_ok.mp hread).1
  · intro hword
    obtain ⟨c, x, hcons, hx, wanted, hc⟩ := exists_of_mem_word hword
    refine ⟨⟨String.ofList (Token.stripLayout s.toList), wanted⟩, only_ofToken_eq_ok.mpr ⟨?_, rfl⟩⟩
    rw [hcons]
    exact cons_mem_namesIn.mpr ⟨hc, hx⟩

theorem accepts_ofTokenIn_iff {wanted : LetterCase} :
    Accepts (ofTokenIn wanted) s ↔ Token.stripLayout s.toList ∈ namesIn wanted := by
  constructor
  · rintro ⟨ident, hread⟩
    obtain ⟨hany, rfl⟩ := only_ofTokenIn_eq_ok.mp hread
    exact (only_ofToken_eq_ok.mp hany).1
  · intro hmem
    exact ⟨⟨String.ofList (Token.stripLayout s.toList), wanted⟩,
      only_ofTokenIn_eq_ok.mpr ⟨only_ofToken_eq_ok.mpr ⟨hmem, rfl⟩, rfl⟩⟩

/-- A name has one of the two cases and not the other. -/
theorem existsUnique_namesIn {w : List Char} (hw : w ∈ Grammar.word) : ∃! wanted, w ∈ namesIn wanted := by
  obtain ⟨c, x, rfl, hx, wanted, hc⟩ := exists_of_mem_word hw
  refine ⟨wanted, cons_mem_namesIn.mpr ⟨hc, hx⟩, fun other hother => ?_⟩
  have hsome := LetterCase.ofName_eq_some (x := x).mpr (cons_mem_namesIn.mp hother).1
  rw [LetterCase.ofName_eq_some.mpr hc] at hsome
  exact (Option.some.inj hsome).symm

end Identifier

namespace IntLiteral

/-- `[0-9]*'L D+` with a letter and digits of the base, and a width below 2^32. -/
def basedTexts (base : Base) : Language Char :=
  {w | w ∈ Grammar.based base.letterRanges base.digitRanges ∧
    Base.decimal.denoted (w.takeWhile (· ≠ '\x27')) < 2 ^ 32}

theorem mem_basedTexts {base : Base} {w : List Char} : w ∈ basedTexts base ↔ ∃ front letter digits,
    (∀ d ∈ front, d.isDigit = true) ∧ inRanges base.letterRanges letter = true ∧
      (digits ≠ [] ∧ ∀ d ∈ digits, inRanges base.digitRanges d = true) ∧
        Base.decimal.denoted front < 2 ^ 32 ∧ w = front ++ '\x27' :: letter :: digits := by
  have hwidth {front rest : List Char} (hfront : ∀ d ∈ front, d.isDigit = true) :
      (front ++ '\x27' :: rest).takeWhile (· ≠ '\x27') = front := by
    have hquote : '\x27' ∉ front := fun hmem => absurd (hfront _ hmem) (by decide)
    have hspan : (front ++ '\x27' :: rest).span (· ≠ '\x27') = (front, '\x27' :: rest) := span_apostrophe hquote
    rw [List.span_eq_takeWhile_dropWhile] at hspan
    exact (Prod.mk.inj hspan).1
  constructor
  · rintro ⟨hw, hlt⟩
    obtain ⟨front, letter, digits, hfront, hletter, hdigits, rfl⟩ := Lexeme.mem_based.mp hw
    rw [hwidth hfront] at hlt
    exact ⟨front, letter, digits, hfront, hletter, hdigits, hlt, rfl⟩
  · rintro ⟨front, letter, digits, hfront, hletter, hdigits, hlt, rfl⟩
    refine ⟨Lexeme.mem_based.mpr ⟨front, letter, digits, hfront, hletter, hdigits, rfl⟩, ?_⟩
    rwa [hwidth hfront]

theorem mem_language_fill {w : List Char} :
    w ∈ TokenKind.fill.language ↔ ∃ ones, w = (fill ones).display.toList := by
  constructor
  · intro hw
    obtain ⟨v, ⟨c, hc, rfl⟩, rfl⟩ := mem_text_mul.mp hw
    rcases Lexeme.inRanges_bit.mp hc with rfl | rfl
    · exact ⟨false, rfl⟩
    · exact ⟨true, rfl⟩
  · rintro ⟨ones, rfl⟩
    exact (writes_fill ones).mem

theorem ofToken_readsAtoms : ReadsAtoms ofToken where
  isAtom _ _ h := isAtom_of_ofToken h
  anywhere _ _ _ _ := rfl

theorem decimalOfToken_eq_ok {t : Token} {literal : IntLiteral} :
    decimalOfToken t = .ok literal ↔ ofToken t = .ok literal ∧ literal.base? = some .decimal := by
  rw [decimalOfToken]
  exact TokenReader.checked_eq_ok

theorem ofToken_based {text : String} {span : Span} {literal : IntLiteral} :
    ofToken ⟨.based, text, span⟩ = .ok literal ↔ ofBasedText? text = some literal := by
  rw [ofToken]
  cases ofBasedText? text <;> simp

/-- The literal that a text writes. -/
inductive Written : List Char → IntLiteral → Prop
  | plain {w : List Char} (hw : w ∈ TokenKind.number.language) : Written w (.plain (String.ofList w))
  | fill (ones : Bool) : Written (IntLiteral.fill ones).display.toList (.fill ones)
  | based {base : Base} {front digits : List Char} {letter : Char} (hfront : ∀ d ∈ front, d.isDigit = true)
      (hletter : inRanges base.letterRanges letter = true)
      (hdigits : digits ≠ [] ∧ ∀ d ∈ digits, inRanges base.digitRanges d = true)
      (hwidth : Base.decimal.denoted front < 2 ^ 32) :
      Written (front ++ '\x27' :: letter :: digits) (.based (statedWidth front) base (String.ofList digits))

variable {s : String} {literal : IntLiteral}

theorem only_ofToken_eq_ok :
    ofToken.only (Token.lex s) = .ok literal ↔ Written (Token.stripLayout s.toList) literal := by
  rw [ofToken_readsAtoms.only_lex]
  generalize Token.stripLayout s.toList = w
  constructor
  · rintro ⟨kind, span, hatom, hmem, hread⟩
    cases kind with
    | number =>
        cases hread
        exact .plain hmem
    | based =>
        obtain ⟨base, hbase⟩ := TokenKind.mem_language_based.mp hmem
        obtain ⟨front, letter, digits, hfront, hletter, hdigits, rfl⟩ := Lexeme.mem_based.mp hbase
        obtain ⟨hwidth, rfl⟩ := (ofBasedText_eq_some_of_mem String.toList_ofList hfront hletter hdigits).mp
          (ofToken_based.mp hread)
        exact .based hfront hletter hdigits hwidth
    | fill =>
        obtain ⟨ones, rfl⟩ := mem_language_fill.mp hmem
        rw [String.ofList_toList, (writes_fill ones).reads] at hread
        cases hread
        exact .fill ones
    | word => cases hread
    | _ => cases hatom
  · intro hwritten
    cases hwritten with
    | plain hw => exact ⟨.number, ⟨0, 0⟩, rfl, hw, rfl⟩
    | fill ones =>
        rw [String.ofList_toList]
        exact ⟨.fill, ⟨0, 0⟩, rfl, (writes_fill ones).mem, (writes_fill ones).reads _⟩
    | based hfront hletter hdigits hwidth =>
        refine ⟨.based, ⟨0, 0⟩, rfl, ?_, ofToken_based.mpr ?_⟩
        · exact TokenKind.mem_language_based.mpr
            ⟨_, Lexeme.mem_based.mpr ⟨_, _, _, hfront, hletter, hdigits, rfl⟩⟩
        · exact (ofBasedText_eq_some_of_mem String.toList_ofList hfront hletter hdigits).mpr ⟨hwidth, rfl⟩

theorem only_decimalOfToken_eq_ok : decimalOfToken.only (Token.lex s) = .ok literal ↔
    ofToken.only (Token.lex s) = .ok literal ∧ literal.base? = some .decimal :=
  only_of_checked fun _ _ => decimalOfToken_eq_ok

theorem exists_written_of_mem_basedTexts {base : Base} {w : List Char} (hw : w ∈ basedTexts base) :
    ∃ literal, Written w literal ∧ literal.base? = some base := by
  obtain ⟨front, letter, digits, hfront, hletter, hdigits, hwidth, rfl⟩ := mem_basedTexts.mp hw
  exact ⟨_, .based hfront hletter hdigits hwidth, rfl⟩

theorem accepts_ofToken_iff : Accepts ofToken s ↔
    Token.stripLayout s.toList ∈ TokenKind.number.language ∨
    Token.stripLayout s.toList = "'0".toList ∨ Token.stripLayout s.toList = "'1".toList ∨
    ∃ base, Token.stripLayout s.toList ∈ basedTexts base := by
  simp only [Accepts, only_ofToken_eq_ok]
  generalize Token.stripLayout s.toList = w
  constructor
  · rintro ⟨literal, hw | ⟨_ | _⟩ | ⟨hfront, hletter, hdigits, hwidth⟩⟩
    · exact .inl hw
    · exact .inr (.inl rfl)
    · exact .inr (.inr (.inl rfl))
    · exact .inr (.inr (.inr ⟨_, mem_basedTexts.mpr ⟨_, _, _, hfront, hletter, hdigits, hwidth, rfl⟩⟩))
  · rintro (hw | rfl | rfl | ⟨base, hw⟩)
    · exact ⟨_, .plain hw⟩
    · exact ⟨_, .fill false⟩
    · exact ⟨_, .fill true⟩
    · obtain ⟨literal, hwritten, -⟩ := exists_written_of_mem_basedTexts hw
      exact ⟨literal, hwritten⟩

theorem accepts_decimalOfToken_iff : Accepts decimalOfToken s ↔
    Token.stripLayout s.toList ∈ TokenKind.number.language ∨ Token.stripLayout s.toList ∈ basedTexts .decimal := by
  simp only [Accepts, only_decimalOfToken_eq_ok, only_ofToken_eq_ok]
  generalize Token.stripLayout s.toList = w
  constructor
  · rintro ⟨literal, hw | _ | ⟨hfront, hletter, hdigits, hwidth⟩, hbase⟩
    · exact .inl hw
    · cases hbase
    · cases hbase
      exact .inr (mem_basedTexts.mpr ⟨_, _, _, hfront, hletter, hdigits, hwidth, rfl⟩)
  · rintro (hw | hw)
    · exact ⟨_, .plain hw, rfl⟩
    · exact exists_written_of_mem_basedTexts hw

end IntLiteral

/-- Which texts the rules of one token accept, `u` being the text without the layout at its ends. -/
structure TextsAccepted (s : String) (u : List Char) : Prop where
  identifier_iff : Accepts Identifier.ofToken s ↔ u ∈ Grammar.word
  name_eq : ∀ ident, Identifier.ofToken.only (Token.lex s) = .ok ident → ident.name.toList = u
  case_iff : ∀ wanted, Accepts (Identifier.ofTokenIn wanted) s ↔ u ∈ Identifier.namesIn wanted
  case_eq : ∀ wanted ident, (Identifier.ofTokenIn wanted).only (Token.lex s) = .ok ident →
    ident.name.toList = u ∧ ident.letterCase = wanted
  one_case : u ∈ Grammar.word → ∃! wanted, Accepts (Identifier.ofTokenIn wanted) s
  no_case : u ∉ Grammar.word → ∀ wanted, ¬ Accepts (Identifier.ofTokenIn wanted) s
  literal_iff : Accepts IntLiteral.ofToken s ↔
    u ∈ TokenKind.number.language ∨ u = "'0".toList ∨ u = "'1".toList ∨ ∃ base, u ∈ IntLiteral.basedTexts base
  decimal_iff : Accepts IntLiteral.decimalOfToken s ↔
    u ∈ TokenKind.number.language ∨ u ∈ IntLiteral.basedTexts .decimal

/-- The rules of one token accept their lexical classes, with layout around them, and nothing else. -/
theorem one_token_texts (s : String) : TextsAccepted s (Token.stripLayout s.toList) where
  identifier_iff := Identifier.accepts_ofToken_iff
  name_eq ident hread := Identifier.name_of_only hread
  case_iff wanted := Identifier.accepts_ofTokenIn_iff
  case_eq wanted ident hread := by
    obtain ⟨hany, hcase⟩ := Identifier.only_ofTokenIn_eq_ok.mp hread
    exact ⟨Identifier.name_of_only hany, hcase⟩
  one_case hword := by
    simp only [Identifier.accepts_ofTokenIn_iff]
    exact Identifier.existsUnique_namesIn hword
  no_case hword wanted haccepts :=
    hword (Identifier.mem_word_of_mem_namesIn (Identifier.accepts_ofTokenIn_iff.mp haccepts))
  literal_iff := IntLiteral.accepts_ofToken_iff
  decimal_iff := IntLiteral.accepts_decimalOfToken_iff

end BluespecDocs
