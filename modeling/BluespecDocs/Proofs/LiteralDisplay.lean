import BluespecDocs.OneToken
import BluespecDocs.Proofs.TokenTexts

/-!
The written form of a literal. It is the text of one token, and the literal that is read from this token is the
one that was written.
-/

namespace BluespecDocs

open Grammar

theorem range_of_isDigit {c : Char} (h : c.isDigit = true) : '0' ≤ c ∧ c ≤ '9' := by
  rw [isDigit_eq, inRanges_iff] at h
  obtain ⟨range, hmem, hrange⟩ := h
  rwa [List.mem_singleton.mp hmem] at hrange

theorem digit_lt_ten {c : Char} (h : c.isDigit = true) : c.toNat - '0'.toNat < 10 := by
  have hle : c.toNat ≤ 57 := (range_of_isDigit h).2
  change c.toNat - 48 < 10
  omega

namespace Base

theorem ofLetter_letter (base : Base) : ofLetter? base.letter = some base := by cases base <;> rfl

theorem decimal_digit {c : Char} (h : c.isDigit = true) : decimal.digit? c = some (c.toNat - '0'.toNat) := by
  rw [digit?, digitValue?, if_pos (range_of_isDigit h)]
  exact Option.filter_some_pos (decide_eq_true (digit_lt_ten h))

/-- Digits denote in base ten what the library's reading of them gives. -/
theorem positional_eq_ofDigitChars {ds : List Char} (h : ∀ d ∈ ds, d.isDigit = true) :
    decimal.positional? ds = some (Nat.ofDigitChars 10 ds 0) := by
  rw [positional?]
  generalize 0 = start
  induction ds generalizing start with
  | nil => rfl
  | cons d ds ih =>
      obtain ⟨hd, hds⟩ := List.forall_mem_cons.mp h
      rw [List.foldlM_cons, decimal_digit hd, Option.map_some, Nat.ofDigitChars_cons, Nat.mul_comm]
      exact ih hds _

theorem natBelow_of_head {base : Base} {bound : Nat} {ds : List Char} (h : ds.head? ≠ some '+') :
    base.natBelow? bound ds = if ds = [] then none else (base.positional? ds).filter (· < bound) := by
  rw [natBelow?]
  rintro ds rfl
  exact h rfl

theorem lt_of_natBelow {base : Base} {bound n : Nat} {text : List Char} (h : base.natBelow? bound text = some n) :
    n < bound := by
  obtain ⟨ds, hds⟩ : ∃ ds, base.natBelow? bound text =
    if ds = [] then none else (base.positional? ds).filter (· < bound) := ⟨_, rfl⟩
  rw [hds] at h
  split at h
  · cases h
  · exact of_decide_eq_true (Option.filter_eq_some_iff.mp h).2

theorem natBelow_toDigits {n bound : Nat} (h : n < bound) :
    decimal.natBelow? bound (Nat.toDigits 10 n) = some n := by
  have hdigits : ∀ d ∈ Nat.toDigits 10 n, d.isDigit = true := fun d hd =>
    Nat.isDigit_of_mem_toDigits (by decide) (by decide) hd
  have hplus : (Nat.toDigits 10 n).head? ≠ some '+' := fun hhead =>
    absurd (hdigits '+' (List.mem_of_mem_head? hhead)) (by decide)
  rw [natBelow_of_head hplus, if_neg Nat.toDigits_ne_nil, positional_eq_ofDigitChars hdigits,
    Nat.ofDigitChars_toDigits (by decide) (by decide)]
  exact Option.filter_some_pos (decide_eq_true h)

end Base

namespace IntLiteral

/-- The digits of a width, as they stand in front of the apostrophe. -/
def widthText : Option Nat → List Char
  | some n => Nat.toDigits 10 n
  | none => []

theorem isDigit_of_mem_widthText {width : Option Nat} {d : Char} (hd : d ∈ widthText width) :
    d.isDigit = true := by
  cases width with
  | none => cases hd
  | some n => exact Nat.isDigit_of_mem_toDigits (by decide) (by decide) hd

theorem display_based_toList (width : Option Nat) (base : Base) (digits : String) :
    (based width base digits).display.toList = widthText width ++ '\x27' :: base.letter :: digits.toList := by
  obtain ⟨front, hfront, htext⟩ : ∃ front : String, front.toList = widthText width ∧
      (based width base digits).display = front ++ "'" ++ String.singleton base.letter ++ digits := by
    cases width with
    | none => exact ⟨"", rfl, rfl⟩
    | some n => exact ⟨toString n, Nat.toList_repr, rfl⟩
  rw [htext, String.toList_append, String.toList_append, String.toList_append, String.toList_singleton, hfront,
    List.append_assoc, List.append_assoc]
  rfl

/-- A width that was read is written without leading zeros, and read again as itself. -/
theorem width_widthText {ds : List Char} {width : Option Nat} (h : width? ds = some width) :
    width? (widthText width) = some width := by
  rw [width?] at h
  split at h
  · cases h
    rfl
  · obtain ⟨n, hn, rfl⟩ := Option.map_eq_some_iff.mp h
    rw [widthText, width?, if_neg Nat.toDigits_ne_nil, Base.natBelow_toDigits (Base.lt_of_natBelow hn),
      Option.map_some]

theorem span_apostrophe {ds rest : List Char} (h : '\x27' ∉ ds) :
    (ds ++ '\x27' :: rest).span (· ≠ '\x27') = (ds, '\x27' :: rest) := by
  have hds : ∀ d ∈ ds, decide (d ≠ '\x27') = true := fun d hd =>
    decide_eq_true fun heq => h (heq ▸ hd)
  rw [List.span_eq_takeWhile_dropWhile, List.takeWhile_append_of_pos hds, List.dropWhile_append_of_pos hds,
    List.takeWhile_cons_of_neg (by decide), List.dropWhile_cons_of_neg (by decide), List.append_nil]

theorem ofBasedText_of_parts {text : String} {ds digits : List Char} {letter : Char} {base : Base}
    (htext : text.toList = ds ++ '\x27' :: letter :: digits) (hquote : '\x27' ∉ ds)
    (hletter : Base.ofLetter? letter = some base) (hdigits : digits ≠ [] ∧ ∀ d ∈ digits, base.admits d = true) :
    ofBasedText? text = (width? ds).map (based · base (String.ofList digits)) := by
  rw [ofBasedText?, htext, span_apostrophe hquote]
  change ((Base.ofLetter? letter).bind fun base => _) = _
  rw [hletter, Option.bind_some, if_pos ⟨hdigits.1, List.all_eq_true.mpr hdigits.2⟩, Option.map_eq_bind]
  rfl

/-- What makes a text a based literal. -/
theorem ofBasedText_eq_some {text : String} {literal : IntLiteral} :
    ofBasedText? text = some literal ↔ ∃ ds letter digits width base,
      text.toList = ds ++ '\x27' :: letter :: digits ∧ '\x27' ∉ ds ∧ Base.ofLetter? letter = some base ∧
      (digits ≠ [] ∧ ∀ d ∈ digits, base.admits d = true) ∧ width? ds = some width ∧
      literal = based width base (String.ofList digits) := by
  constructor
  · intro h
    rw [ofBasedText?, List.span_eq_takeWhile_dropWhile] at h
    split at h
    · next ds quote letter digits hsplit =>
        obtain ⟨hds, hrest⟩ := Prod.mk.inj hsplit
        obtain ⟨base, hbase, h⟩ := Option.bind_eq_some_iff.mp h
        split at h
        · next hdigits =>
            obtain ⟨width, hwidth, h⟩ := Option.bind_eq_some_iff.mp h
            have hquote : quote = '\x27' := by
              have hhead := List.head?_dropWhile_not (· ≠ '\x27') text.toList
              rw [hrest] at hhead
              simpa using hhead
            have hnone : '\x27' ∉ ds := fun hmem =>
              absurd (List.all_eq_true.mp List.all_takeWhile '\x27' (hds ▸ hmem)) (by decide)
            refine ⟨ds, letter, digits, width, base, ?_, hnone, hbase,
              ⟨hdigits.1, List.all_eq_true.mp hdigits.2⟩, hwidth, (Option.some.inj h).symm⟩
            rw [← hquote, ← hrest, ← hds, List.takeWhile_append_dropWhile]
        · cases h
    · cases h
  · rintro ⟨ds, letter, digits, width, base, htext, hquote, hletter, hdigits, hwidth, rfl⟩
    rw [ofBasedText_of_parts htext hquote hletter hdigits, hwidth]
    rfl

theorem mem_language_of_based {ds digits : List Char} {letter : Char} {base : Base}
    (hds : ∀ d ∈ ds, d.isDigit = true) (hletter : Base.ofLetter? letter = some base)
    (hdigits : digits ≠ [] ∧ ∀ d ∈ digits, base.admits d = true) :
    ds ++ '\x27' :: letter :: digits ∈ TokenKind.based.language := by
  rw [Base.admits_eq] at hdigits
  exact TokenKind.mem_language_based.mpr ⟨base, Lexeme.mem_based.mpr
    ⟨ds, letter, digits, hds, Base.ofLetter_eq_some.mp hletter, hdigits, rfl⟩⟩

/-- Literals are read from names and numbers. -/
theorem isAtom_of_ofToken {t : Token} {literal : IntLiteral} (h : ofToken t = .ok literal) :
    t.kind.isAtom = true := by
  rw [ofToken] at h
  split at h
  · next hkind => rw [hkind]; rfl
  · next hkind => rw [hkind]; rfl
  · next hkind => rw [hkind]; rfl
  · cases h

/-- A text that reads as a literal when it is the text of a token of the given kind. -/
structure Writes (kind : TokenKind) (text : String) (literal : IntLiteral) : Prop where
  isAtom : kind.isAtom = true
  mem : text.toList ∈ kind.language
  reads : ∀ span, ofToken ⟨kind, text, span⟩ = .ok literal

theorem writes_based {text : String} {literal : IntLiteral} (h : ofBasedText? text = some literal) :
    Writes .based literal.display literal := by
  obtain ⟨ds, letter, digits, width, base, -, -, -, hdigits, hwidth, rfl⟩ := ofBasedText_eq_some.mp h
  have hdisplay := display_based_toList width base (String.ofList digits)
  rw [String.toList_ofList] at hdisplay
  have hquote : '\x27' ∉ widthText width := fun hmem => absurd (isDigit_of_mem_widthText hmem) (by decide)
  have hread : ofBasedText? (based width base (String.ofList digits)).display = some _ :=
    ofBasedText_eq_some.mpr ⟨widthText width, base.letter, digits, width, base, hdisplay, hquote,
      base.ofLetter_letter, hdigits, width_widthText hwidth, rfl⟩
  refine ⟨rfl, ?_, fun span => ?_⟩
  · rw [hdisplay]
    exact mem_language_of_based (fun d => isDigit_of_mem_widthText) base.ofLetter_letter hdigits
  · rw [ofToken, hread]

theorem writes_fill (ones : Bool) : Writes .fill (fill ones).display (fill ones) := by
  cases ones with
  | false => exact ⟨rfl, mem_text_mul.mpr ⟨['0'], ⟨'0', by decide, rfl⟩, rfl⟩, fun _ => rfl⟩
  | true => exact ⟨rfl, mem_text_mul.mpr ⟨['1'], ⟨'1', by decide, rfl⟩, rfl⟩, fun _ => rfl⟩

/-- The written form of a literal that was read from a token of a source text reads as this literal. -/
theorem exists_writes {t : Token} {literal : IntLiteral} (ht : t.text.toList ∈ t.kind.language)
    (h : ofToken t = .ok literal) : ∃ kind, Writes kind literal.display literal := by
  rw [ofToken] at h
  split at h
  · split at h
    · next hread =>
        cases h
        exact ⟨.based, writes_based hread⟩
    · cases h
  · next hkind =>
      cases h
      exact ⟨.number, rfl, hkind ▸ ht, fun _ => rfl⟩
  · cases h
    exact ⟨.fill, writes_fill _⟩
  · cases h

end IntLiteral

end BluespecDocs
