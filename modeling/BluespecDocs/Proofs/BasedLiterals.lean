import BluespecDocs.Proofs.LiteralValues

/-!
Literals with a base. The text of a based token is read as a literal unless its width is too large: the lexical
grammar and the reader admit the same letters and digits. The written form of the literal is this text again, but
for the case of the base letter and for leading zeros of the width.
-/

namespace BluespecDocs

open Grammar

theorem digitChar_of_isDigit {d : Char} (hd : d.isDigit = true) : Nat.digitChar (d.toNat - '0'.toNat) = d := by
  have hall : ∀ k < 10, Nat.digitChar k = Char.ofNat ('0'.toNat + k) := by decide
  have hlow : '0'.toNat ≤ d.toNat := (range_of_isDigit hd).1
  rw [hall _ (digit_lt_ten hd), Nat.add_sub_cancel' hlow, Char.ofNat_toNat]

namespace IntLiteral

/-- Digits without the zeros in front. Where there are only zeros, the last one stays. -/
def withoutLeadingZeros : List Char → List Char
  | '0' :: d :: ds => withoutLeadingZeros (d :: ds)
  | ds => ds

/-- A positive number followed by digits is written as the number followed by the digits. -/
theorem toDigits_ofDigitChars_of_pos {n : Nat} (hn : 0 < n) {ds : List Char} (hds : ∀ d ∈ ds, d.isDigit = true) :
    Nat.toDigits 10 (Nat.ofDigitChars 10 ds n) = Nat.toDigits 10 n ++ ds := by
  induction ds generalizing n with
  | nil => rw [Nat.ofDigitChars_nil, List.append_nil]
  | cons d ds ih =>
      obtain ⟨hd, hds⟩ := List.forall_mem_cons.mp hds
      have hsmall := digit_lt_ten hd
      rw [Nat.ofDigitChars_cons, ih (by omega) hds, ← Nat.toDigits_append_toDigits (by decide) hn hsmall,
        Nat.toDigits_of_lt_base hsmall, digitChar_of_isDigit hd, List.append_assoc, List.singleton_append]

/-- A number is written without leading zeros. -/
theorem toDigits_ofDigitChars {ds : List Char} (hne : ds ≠ []) (hds : ∀ d ∈ ds, d.isDigit = true) :
    Nat.toDigits 10 (Nat.ofDigitChars 10 ds 0) = withoutLeadingZeros ds := by
  fun_induction withoutLeadingZeros ds with
  | case1 d ds ih => exact ih (List.cons_ne_nil d ds) (List.forall_mem_cons.mp hds).2
  | case2 ds hzero =>
      obtain ⟨d, ds, rfl⟩ := List.exists_cons_of_ne_nil hne
      obtain ⟨hd, hds⟩ := List.forall_mem_cons.mp hds
      have hsmall := digit_lt_ten hd
      rw [Nat.ofDigitChars_cons, Nat.mul_zero, Nat.zero_add]
      cases ds with
      | nil => rw [Nat.ofDigitChars_nil, Nat.toDigits_of_lt_base hsmall, digitChar_of_isDigit hd]
      | cons e ds =>
          have hpos : 0 < d.toNat - '0'.toNat := by
            refine Nat.pos_of_ne_zero fun hnil => ?_
            have hdigit := digitChar_of_isDigit hd
            rw [hnil] at hdigit
            exact hzero e ds (hdigit ▸ rfl)
          rw [toDigits_ofDigitChars_of_pos hpos hds, Nat.toDigits_of_lt_base hsmall, digitChar_of_isDigit hd,
            List.singleton_append]

variable {front : List Char}

/-- The width that the digits in front of the apostrophe state: none where there are none. -/
def statedWidth (front : List Char) : Option Nat :=
  if front = [] then none else some (Base.decimal.denoted front)

theorem filter_of_isDigit (hfront : ∀ d ∈ front, d.isDigit = true) : front.filter (· ≠ '_') = front := by
  refine List.filter_eq_self.mpr fun d hd => decide_eq_true ?_
  rintro rfl
  exact absurd (hfront _ hd) (by decide)

theorem admits_of_isDigit (hfront : ∀ d ∈ front, d.isDigit = true) : ∀ d ∈ front, Base.decimal.admits d = true := by
  intro d hd
  rw [Base.admits, Base.decimal_digit (hfront d hd), Option.isSome_some, Bool.or_true]

theorem width_eq_some (hfront : ∀ d ∈ front, d.isDigit = true) {width : Option Nat} :
    width? front = some width ↔ Base.decimal.denoted front < 2 ^ 32 ∧ width = statedWidth front := by
  rw [width?, statedWidth]
  split
  · next hnil =>
      rw [hnil, Option.some.injEq, eq_comm]
      exact (and_iff_right (by decide)).symm
  · next hne =>
      have hdigit : Base.HasDigit front := by
        rwa [← Base.filter_ne_nil_iff, filter_of_isDigit hfront]
      have hread (n : Nat) : Base.decimal.natBelow? (2 ^ 32) front = some n ↔
          Base.HasDigit front ∧ Base.decimal.denoted front = n ∧ n < 2 ^ 32 := by
        rw [← Base.natBelow_eq_some (admits_of_isDigit hfront), filter_of_isDigit hfront]
      rw [Option.map_eq_some_iff]
      constructor
      · rintro ⟨n, hn, rfl⟩
        obtain ⟨-, rfl, hlt⟩ := (hread n).mp hn
        exact ⟨hlt, rfl⟩
      · rintro ⟨hlt, rfl⟩
        exact ⟨_, (hread _).mpr ⟨hdigit, rfl, hlt⟩, rfl⟩

theorem widthText_statedWidth (hfront : ∀ d ∈ front, d.isDigit = true) :
    widthText (statedWidth front) = withoutLeadingZeros front := by
  by_cases hne : front = []
  · rw [hne]
    rfl
  · have hdenoted := Base.positional_eq_denoted (admits_of_isDigit hfront)
    rw [filter_of_isDigit hfront, Base.positional_eq_ofDigitChars hfront, Option.some.injEq] at hdenoted
    rw [statedWidth, if_neg hne, widthText, ← hdenoted, toDigits_ofDigitChars hne hfront]

/-- How the text of a literal with a base is read, part by part. -/
structure BasedReading (text : String) (base : Base) (front : List Char) (letter : Char) (digits : List Char) :
    Prop where
  parts : text.toList = front ++ '\x27' :: letter :: digits
  isDigit_front : ∀ d ∈ front, d.isDigit = true
  letter_eq : letter.toLower = base.letter
  isSome_iff : (ofBasedText? text).isSome = true ↔ front = [] ∨ Base.decimal.denoted front < 2 ^ 32
  literal_eq : ∀ literal, ofBasedText? text = some literal →
    literal = based (statedWidth front) base (String.ofList digits)
  display_eq : ∀ literal, ofBasedText? text = some literal →
    literal.display.toList = withoutLeadingZeros front ++ '\x27' :: letter.toLower :: digits

theorem toLower_of_inRanges {base : Base} {letter : Char} (h : inRanges base.letterRanges letter = true) :
    letter.toLower = base.letter := by
  have hletter := Base.ofLetter_eq_some.mpr h
  unfold Base.ofLetter? at hletter
  split at hletter <;> cases hletter <;> rfl

theorem ofBasedText_eq_some_of_mem {text : String} {base : Base} {digits : List Char} {letter : Char}
    (htext : text.toList = front ++ '\x27' :: letter :: digits) (hfront : ∀ d ∈ front, d.isDigit = true)
    (hletter : inRanges base.letterRanges letter = true)
    (hdigits : digits ≠ [] ∧ ∀ d ∈ digits, inRanges base.digitRanges d = true) {literal : IntLiteral} :
    ofBasedText? text = some literal ↔ Base.decimal.denoted front < 2 ^ 32 ∧
      literal = based (statedWidth front) base (String.ofList digits) := by
  have hquote : '\x27' ∉ front := fun hmem => absurd (hfront _ hmem) (by decide)
  rw [← Base.admits_eq] at hdigits
  rw [ofBasedText_of_parts htext hquote (Base.ofLetter_eq_some.mpr hletter) hdigits, Option.map_eq_some_iff]
  simp only [width_eq_some hfront]
  constructor
  · rintro ⟨width, ⟨hlt, rfl⟩, rfl⟩
    exact ⟨hlt, rfl⟩
  · rintro ⟨hlt, rfl⟩
    exact ⟨_, ⟨hlt, rfl⟩, rfl⟩

theorem exists_basedReading {text : String} (h : text.toList ∈ TokenKind.based.language) :
    ∃ base front letter digits, BasedReading text base front letter digits := by
  obtain ⟨base, hbase⟩ := TokenKind.mem_language_based.mp h
  obtain ⟨front, letter, digits, hfront, hletter, hdigits, htext⟩ := Lexeme.mem_based.mp hbase
  have hread (literal : IntLiteral) : ofBasedText? text = some literal ↔ Base.decimal.denoted front < 2 ^ 32 ∧
      literal = based (statedWidth front) base (String.ofList digits) :=
    ofBasedText_eq_some_of_mem htext hfront hletter hdigits
  refine ⟨base, front, letter, digits, htext, hfront, toLower_of_inRanges hletter, ?_,
    fun literal hliteral => ((hread literal).mp hliteral).2, fun literal hliteral => ?_⟩
  · rw [Option.isSome_iff_exists]
    simp only [hread, exists_and_left, exists_eq, and_true]
    refine ⟨.inr, ?_⟩
    rintro (rfl | hlt)
    · decide
    · exact hlt
  · rw [((hread literal).mp hliteral).2, display_based_toList, widthText_statedWidth hfront, String.toList_ofList,
      toLower_of_inRanges hletter]

/-- Every based token is read as the literal it writes, if its width is small enough, and the written form of a
literal is one token that is read as this literal. -/
theorem based_tokens_read (source : String) :
    (∀ t ∈ Token.lex source, t.kind = .based →
      ∃ base front letter digits, BasedReading t.text base front letter digits) ∧
    ∀ literal : IntLiteral, literal.ReadFrom source →
      ∃ shown, Token.lex literal.display = [shown] ∧ ofToken shown = .ok literal := by
  constructor
  · intro t ht hkind
    have hmem := Token.mem_language_of_mem ht (by rw [hkind]; decide)
    rw [hkind] at hmem
    exact exists_basedReading hmem
  · rintro literal ⟨t, ht, hread⟩
    have hmem := Token.mem_language_of_mem ht (TokenKind.ne_other_of_isAtom (isAtom_of_ofToken hread))
    obtain ⟨kind, hwrites⟩ := exists_writes hmem hread
    have hlex := Token.lexFrom_atom hwrites.isAtom hwrites.mem Lexeme.breaksOff_nil 0
    rw [List.append_nil, String.ofList_toList, Token.lexFrom] at hlex
    exact ⟨_, hlex, hwrites.reads _⟩

/-- A width with leading zeros, a capital base letter and digits of both cases. -/
theorem based_tokens_read_padded :
    (∃ base front letter digits, BasedReading "0016'HfF_0" base front letter digits) ∧
    ∃ shown, Token.lex (based (some 16) .hex "fF_0").display = [shown] ∧
      ofToken shown = .ok (based (some 16) .hex "fF_0") := by
  have hmem : ⟨.based, "0016'HfF_0", ⟨2, 12⟩⟩ ∈ Token.lex "= 0016'HfF_0;" := by decide +kernel
  obtain ⟨htokens, hliterals⟩ := based_tokens_read "= 0016'HfF_0;"
  exact ⟨htokens _ hmem rfl, hliterals _ ⟨_, hmem, rfl⟩⟩

end IntLiteral

end BluespecDocs
