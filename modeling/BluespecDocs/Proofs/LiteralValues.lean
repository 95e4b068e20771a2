import BluespecDocs.Proofs.LiteralDisplay
import Mathlib.Data.Nat.Digits.Defs

/-!
The value of a literal. It is the number that the digits denote by their places, exactly, as long as this number
is below 2^128; what does not change the number, such as underscores, leading zeros and a width, does not change
the value either.
-/

namespace BluespecDocs

open Grammar

/-- The number that a digit stands for: its place in the row of digits, in either case. -/
def digitNumber (c : Char) : Nat := "0123456789abcdef".toList.idxOf c.toLower

namespace Base

/-- The number that a text denotes in a base. The last digit counts ones, and each other one `radix` times as much
as the one behind it; underscores count for nothing. -/
def denoted (base : Base) (cs : List Char) : Nat :=
  Nat.ofDigits base.radix ((cs.filter (· ≠ '_')).map digitNumber).reverse

theorem digitNumber_of_digitValue {c : Char} {n : Nat} (h : digitValue? c = some n) : digitNumber c = n := by
  -- A digit is one of sixteen characters or of the six capital letters, which are tried one by one.
  have hrow (low : Nat) (size start : Nat)
      (hall : ∀ k < size, digitNumber (Char.ofNat (low + k)) = start + k) (hlow : low ≤ c.toNat)
      (hhigh : c.toNat < low + size) : digitNumber c = c.toNat - low + start := by
    have hk := hall (c.toNat - low) (by omega)
    rw [Nat.add_sub_cancel' hlow, Char.ofNat_toNat] at hk
    rw [hk, Nat.add_comm]
  rw [digitValue?] at h
  split at h
  · next hc =>
      cases h
      exact hrow 48 10 0 (by decide) hc.1 (Nat.lt_succ_of_le hc.2)
  · split at h
    · next hc =>
        cases h
        exact hrow 97 6 10 (by decide) hc.1 (Nat.lt_succ_of_le hc.2)
    · split at h
      · next hc =>
          cases h
          exact hrow 65 6 10 (by decide) hc.1 (Nat.lt_succ_of_le hc.2)
      · cases h

theorem digit_of_admits {base : Base} {c : Char} (h : base.admits c = true) (hc : c ≠ '_') :
    base.digit? c = some (digitNumber c) := by
  rw [admits, beq_eq_false_iff_ne.mpr hc, Bool.false_or] at h
  obtain ⟨n, hn⟩ := Option.isSome_iff_exists.mp h
  rw [hn, digitNumber_of_digitValue (Option.filter_eq_some_iff.mp hn).1]

theorem admits_plus (base : Base) : base.admits '+' = false := by cases base <;> rfl

variable {base : Base} {cs cs' : List Char}

theorem filter_underscore (cs : List Char) : (cs ++ ['_']).filter (· ≠ '_') = cs.filter (· ≠ '_') := by
  rw [List.filter_append, List.filter_cons_of_neg (by decide), List.filter_nil, List.append_nil]

theorem filter_digit (cs : List Char) {c : Char} (hc : c ≠ '_') :
    (cs ++ [c]).filter (· ≠ '_') = cs.filter (· ≠ '_') ++ [c] := by
  have hone : [c].filter (· ≠ '_') = [c] := List.filter_cons_of_pos (decide_eq_true hc)
  rw [List.filter_append, hone]

theorem denoted_underscore (base : Base) (cs : List Char) : base.denoted (cs ++ ['_']) = base.denoted cs := by
  rw [denoted, filter_underscore, denoted]

theorem denoted_digit (base : Base) (cs : List Char) {c : Char} (hc : c ≠ '_') :
    base.denoted (cs ++ [c]) = base.denoted cs * base.radix + digitNumber c := by
  rw [denoted, filter_digit cs hc, List.map_append, List.map_singleton, List.reverse_concat, Nat.ofDigits_cons,
    denoted, Nat.add_comm, Nat.mul_comm]

theorem denoted_append_ge (base : Base) (a b : List Char) : base.denoted a ≤ base.denoted (a ++ b) := by
  have hradix : 0 < base.radix := by cases base <;> decide
  rw [denoted, denoted, List.filter_append, List.map_append, List.reverse_append, Nat.ofDigits_append]
  exact Nat.le_add_left_of_le (Nat.le_mul_of_pos_left _ (Nat.pow_pos hradix))

/-- Reading digits from the left gives the number they denote. -/
theorem positional_eq_denoted (h : ∀ c ∈ cs, base.admits c = true) :
    base.positional? (cs.filter (· ≠ '_')) = some (base.denoted cs) := by
  induction cs using List.reverseRecOn with
  | nil => rfl
  | append_singleton cs c ih =>
      obtain ⟨hcs, hc⟩ := List.forall_mem_append.mp h
      by_cases hunderscore : c = '_'
      · subst hunderscore
        rw [filter_underscore, denoted_underscore, ih hcs]
      · have hdigit := digit_of_admits (hc c List.mem_cons_self) hunderscore
        have hread := ih hcs
        rw [positional?] at hread
        rw [filter_digit cs hunderscore, denoted_digit base cs hunderscore, positional?, List.foldlM_append, hread]
        change ((base.digit? c).map (base.denoted cs * base.radix + ·) >>= pure) = _
        rw [hdigit]
        rfl

/-- A text has a digit. -/
def HasDigit (cs : List Char) : Prop := ∃ c ∈ cs, c ≠ '_'

theorem filter_ne_nil_iff : cs.filter (· ≠ '_') ≠ [] ↔ HasDigit cs := by
  rw [Ne, List.filter_eq_nil_iff]
  simp [HasDigit]

/-- Below a bound, digits are read as the number they denote. -/
theorem natBelow_eq_some (h : ∀ c ∈ cs, base.admits c = true) {bound v : Nat} :
    base.natBelow? bound (cs.filter (· ≠ '_')) = some v ↔ HasDigit cs ∧ base.denoted cs = v ∧ v < bound := by
  have hplus : (cs.filter (· ≠ '_')).head? ≠ some '+' := by
    intro hhead
    have hmem := (List.mem_filter.mp (List.mem_of_mem_head? hhead)).1
    exact absurd (h '+' hmem) (by rw [admits_plus]; exact Bool.false_ne_true)
  rw [natBelow_of_head hplus, positional_eq_denoted h, ← filter_ne_nil_iff]
  split
  · next hnil => exact ⟨fun hv => absurd hv.symm (Option.some_ne_none v), fun hv => absurd hnil hv.1⟩
  · next hne =>
      rw [Option.filter_eq_some_iff, Option.some.injEq, decide_eq_true_iff]
      exact ⟨fun hv => ⟨hne, hv⟩, fun hv => hv.2⟩

/-- The digits of a text that count: those behind the leading zeros. -/
def significant (cs : List Char) : List Char := (cs.filter (· ≠ '_')).dropWhile (· == '0')

theorem denoted_eq_significant (base : Base) (cs : List Char) :
    base.denoted cs = Nat.ofDigits base.radix ((significant cs).map digitNumber).reverse := by
  rw [denoted, significant]
  induction cs.filter (· ≠ '_') with
  | nil => rfl
  | cons c ds ih =>
      by_cases hc : c = '0'
      · subst hc
        rw [List.dropWhile_cons_of_pos (by decide), ← ih]
        exact Nat.ofDigits_reverse_zero_cons _
      · rw [List.dropWhile_cons_of_neg (by simpa using hc)]

theorem mem_significant {c : Char} (hc : c ∈ cs) : c = '_' ∨ c = '0' ∨ c ∈ significant cs := by
  by_cases hunderscore : c = '_'
  · exact .inl hunderscore
  · have hmem : c ∈ cs.filter (· ≠ '_') := List.mem_filter.mpr ⟨hc, decide_eq_true hunderscore⟩
    rw [← List.takeWhile_append_dropWhile (p := (· == '0')) (l := cs.filter (· ≠ '_')), List.mem_append] at hmem
    rcases hmem with hzero | hmem
    · exact .inr (.inl (eq_of_beq (List.all_eq_true.mp List.all_takeWhile c hzero)))
    · exact .inr (.inr hmem)

theorem mem_of_mem_significant {c : Char} (hc : c ∈ significant cs) : c ∈ cs :=
  (List.mem_filter.mp ((List.dropWhile_sublist _).subset hc)).1

/-- Only the digits that count decide whether a text may stand in a literal of the base. -/
theorem admits_of_significant_eq (h : ∀ c ∈ cs, base.admits c = true) (hsame : significant cs' = significant cs) :
    ∀ c ∈ cs', base.admits c = true := by
  intro c hc
  rcases mem_significant hc with rfl | rfl | hmem
  · rfl
  · cases base <;> rfl
  · exact h c (mem_of_mem_significant (hsame ▸ hmem))

end Base

namespace IntLiteral

/-- A literal is read from a token of a source text. -/
def ReadFrom (source : String) (literal : IntLiteral) : Prop := ∃ t ∈ Token.lex source, ofToken t = .ok literal

/-- The base of a literal and its digits as they are written; fill patterns have none. -/
def numeral? : IntLiteral → Option (Base × String)
  | plain digits => some (.decimal, digits)
  | based _ base digits => some (base, digits)
  | fill _ => none

theorem value_eq {literal : IntLiteral} {base : Base} {digits : String} (h : literal.numeral? = some (base, digits)) :
    literal.value? = base.natBelow? (2 ^ 128) (digits.toList.filter (· ≠ '_')) := by
  cases literal with
  | plain digits =>
      cases h
      rfl
  | based width base digits =>
      cases h
      rfl
  | fill ones => cases h

/-- The digits of a literal of a source text are those of its base. -/
theorem ReadFrom.admits {source : String} {literal : IntLiteral} (h : literal.ReadFrom source) {base : Base}
    {digits : String} (hnumeral : literal.numeral? = some (base, digits)) :
    ∀ c ∈ digits.toList, base.admits c = true := by
  obtain ⟨t, ht, hread⟩ := h
  rw [ofToken] at hread
  split at hread
  · split at hread
    · next hbased =>
        cases hread
        obtain ⟨ds, letter, vs, width, base', -, -, -, ⟨-, hvs⟩, -, rfl⟩ := ofBasedText_eq_some.mp hbased
        cases hnumeral
        rwa [String.toList_ofList]
    · cases hread
  · next hkind =>
      cases hread
      cases hnumeral
      have hmem := Token.mem_language_of_mem ht (by rw [hkind]; decide)
      rw [hkind] at hmem
      rw [Base.admits_eq]
      exact forall_of_mem_one_mul_kstar hmem (fun c hc => inRanges_mono (by decide) hc) fun c hc => hc
  · cases hread
    cases hnumeral
  · cases hread

/-- What the value of a literal has to do with its digits. -/
structure ExactValue (literal : IntLiteral) (base : Base) (digits : List Char) : Prop where
  eq_some_iff : ∀ v, literal.value? = some v ↔ Base.HasDigit digits ∧ base.denoted digits = v ∧ v < 2 ^ 128
  in_range : ∀ v, literal.value? = some v → ∀ front, front <+: digits → base.denoted front < 2 ^ 128
  unchanged : ∀ (other : IntLiteral) (digits' : String), other.numeral? = some (base, digits') →
    (Base.HasDigit digits'.toList ↔ Base.HasDigit digits) →
    Base.significant digits'.toList = Base.significant digits → other.value? = literal.value?

/-- Values are exact up to 2^128. -/
theorem value_exact (source : String) (literal : IntLiteral) (base : Base) (digits : String)
    (hread : literal.ReadFrom source) (hnumeral : literal.numeral? = some (base, digits)) :
    literal.ExactValue base digits.toList := by
  have hadmits := hread.admits hnumeral
  have hsome (v : Nat) : literal.value? = some v ↔
      Base.HasDigit digits.toList ∧ base.denoted digits.toList = v ∧ v < 2 ^ 128 := by
    rw [value_eq hnumeral]
    exact Base.natBelow_eq_some hadmits
  refine ⟨hsome, ?_, ?_⟩
  · rintro v hv front ⟨rest, hrest⟩
    obtain ⟨-, hdenoted, hlt⟩ := (hsome v).mp hv
    rw [← hrest] at hdenoted
    exact (base.denoted_append_ge front rest).trans_lt (hdenoted ▸ hlt)
  · intro other digits' hother hdigit hsame
    refine Option.ext fun v => ?_
    rw [hsome, value_eq hother, Base.natBelow_eq_some (Base.admits_of_significant_eq hadmits hsame), hdigit,
      base.denoted_eq_significant, base.denoted_eq_significant, hsame]

/-- The largest value that there is, with a leading zero, underscores and letters of both cases. -/
theorem value_exact_largest :
    ReadFrom "129'h0_FFFF_FFFF_FFFF_FFFF_ffff_ffff_ffff_ffff" (based (some 129) .hex
      "0_FFFF_FFFF_FFFF_FFFF_ffff_ffff_ffff_ffff") ∧
    (based (some 129) .hex "0_FFFF_FFFF_FFFF_FFFF_ffff_ffff_ffff_ffff").value? = some (2 ^ 128 - 1) := by
  have hread : ReadFrom "129'h0_FFFF_FFFF_FFFF_FFFF_ffff_ffff_ffff_ffff" (based (some 129) .hex
      "0_FFFF_FFFF_FFFF_FFFF_ffff_ffff_ffff_ffff") :=
    ⟨⟨.based, "129'h0_FFFF_FFFF_FFFF_FFFF_ffff_ffff_ffff_ffff", ⟨0, 46⟩⟩, by decide +kernel, rfl⟩
  refine ⟨hread, ((value_exact _ _ _ _ hread rfl).eq_some_iff _).mpr ⟨⟨'0', by decide, by decide⟩, ?_, ?_⟩⟩
  · decide +kernel
  · decide

end IntLiteral

end BluespecDocs
