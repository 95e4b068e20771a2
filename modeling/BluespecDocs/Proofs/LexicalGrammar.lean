import BluespecDocs.Lexeme
import Mathlib.Computability.Language

/-!
The lexical grammar. To each kind of token belongs the language of its texts, given as a regular expression;
only block comments, which end at the first closing mark, are described otherwise. The languages say nothing
about how far a token reaches.
-/

open scoped Computability

namespace BluespecDocs

namespace Grammar

/-- One character that passes a test. -/
def one (test : Char → Bool) : Language Char := {w | ∃ c, test c = true ∧ w = [c]}

/-- Whether a character lies in one of some ranges. -/
def inRanges (ranges : List (Char × Char)) (c : Char) : Bool :=
  ranges.any fun range => range.1 ≤ c ∧ c ≤ range.2

/-- One character out of some ranges. -/
def among (ranges : List (Char × Char)) : Language Char := one (inRanges ranges)

/-- One character that is none of the given ones. -/
def noneOf (chars : List Char) : Language Char := one fun c => !chars.contains c

/-- The given text alone. -/
def text (s : String) : Language Char := {w | w = s.toList}

/-- `[A-Za-z0-9_$]` -/
def wordPart : Language Char := among [('A', 'Z'), ('a', 'z'), ('0', '9'), ('_', '_'), ('$', '$')]

/-- `[A-Za-z_][A-Za-z0-9_$]*` -/
def word : Language Char := among [('A', 'Z'), ('a', 'z'), ('_', '_')] * wordPart∗

/-- `[0-9]*'[letters][digits]+` -/
def based (letters digits : List (Char × Char)) : Language Char :=
  (among [('0', '9')])∗ * (text "'" * (among letters * (among digits * (among digits)∗)))

/-- `[^"\\\n]|\\.` -/
def stringPiece : Language Char := noneOf ['"', '\\', '\n'] + text "\\" * noneOf ['\n']

/-- `[^\n]|\\\n` -/
def linePiece : Language Char := noneOf ['\n'] + text "\\\n"

/-- A block comment through the first closing mark behind its opening mark. It is documentation if its body
starts with a star. -/
def blockComment (doc : Bool) : Language Char :=
  {w | ∃ body, w = "/*".toList ++ (body ++ "*/".toList) ∧ ¬ "*/".toList <:+: body ++ ['*'] ∧
    decide (body.head? = some '*') = doc}

end Grammar

open Grammar in
/-- The texts that tokens of a kind can have. Text of no lexical class has no rule. -/
def TokenKind.language : TokenKind → Language Char
  | comment .docLine => text "///" * (1 + (noneOf ['/', '\n'] + text "\\\n") * linePiece∗)
  | comment .line => text "//" * linePiece∗
  | comment .docBlock => Grammar.blockComment true
  | comment .block => Grammar.blockComment false
  | word => Grammar.word
  | systemWord => text "$" * (wordPart * wordPart∗)
  | directive => text "\x60" * Grammar.word
  | number => among [('0', '9')] * (among [('0', '9'), ('_', '_')])∗
  | based =>
    Grammar.based [('h', 'h'), ('H', 'H')] [('0', '9'), ('A', 'F'), ('a', 'f'), ('_', '_')] +
    Grammar.based [('o', 'o'), ('O', 'O')] [('0', '7'), ('_', '_')] +
    Grammar.based [('b', 'b'), ('B', 'B')] [('0', '1'), ('_', '_')] +
    Grammar.based [('d', 'd'), ('D', 'D')] [('0', '9'), ('_', '_')]
  | fill => text "'" * among [('0', '1')]
  | string => text "\"" * (stringPiece∗ * text "\"")
  | mark m => text m.text
  | other => 0

namespace Grammar

variable {test : Char → Bool} {l : Language Char} {w : List Char} {s : String}

theorem mem_noneOf {chars : List Char} : w ∈ noneOf chars ↔ ∃ c, c ∉ chars ∧ w = [c] :=
  exists_congr fun c => and_congr_left' (by simp)

theorem mem_one_mul : w ∈ one test * l ↔ ∃ c v, test c = true ∧ v ∈ l ∧ w = c :: v := by
  rw [Language.mem_mul]
  constructor
  · rintro ⟨_, ⟨c, hc, rfl⟩, v, hv, rfl⟩
    exact ⟨c, v, hc, hv, rfl⟩
  · rintro ⟨c, v, hc, hv, rfl⟩
    exact ⟨[c], ⟨c, hc, rfl⟩, v, hv, rfl⟩

theorem mem_text_mul : w ∈ text s * l ↔ ∃ v ∈ l, w = s.toList ++ v := by
  rw [Language.mem_mul]
  constructor
  · rintro ⟨_, rfl, v, hv, rfl⟩
    exact ⟨v, hv, rfl⟩
  · rintro ⟨v, hv, rfl⟩
    exact ⟨s.toList, rfl, v, hv, rfl⟩

theorem nil_notMem_text_mul (hs : s.toList ≠ []) : [] ∉ text s * l := by
  rw [mem_text_mul]
  rintro ⟨v, -, hv⟩
  exact hs (List.append_eq_nil_iff.mp hv.symm).1

/-- A repetition is empty or starts with one of the repeated parts. -/
theorem mem_kstar_cases : w ∈ l∗ ↔ w = [] ∨ ∃ u ∈ l, ∃ v ∈ l∗, u ++ v = w := by
  rw [← Language.one_add_self_mul_kstar_eq_kstar, Language.mem_add, Language.mem_one, Language.mem_mul,
    Language.one_add_self_mul_kstar_eq_kstar]

theorem append_mem_kstar {u v : List Char} (hu : u ∈ l) (hv : v ∈ l∗) : u ++ v ∈ l∗ :=
  mem_kstar_cases.mpr (.inr ⟨u, hu, v, hv, rfl⟩)

/-- Induction along the parts of a repetition. -/
theorem kstar_induction {motive : (w : List Char) → w ∈ l∗ → Prop}
    (nil : motive [] (Language.nil_mem_kstar l))
    (append : ∀ u v (hu : u ∈ l) (hv : v ∈ l∗), motive v hv → motive (u ++ v) (append_mem_kstar hu hv))
    (h : w ∈ l∗) : motive w h := by
  obtain ⟨parts, rfl, hparts⟩ := Language.mem_kstar.mp h
  induction parts with
  | nil => exact nil
  | cons u parts ih =>
      have hrest (v : List Char) (hv : v ∈ parts) : v ∈ l := hparts v (List.mem_cons_of_mem u hv)
      exact append u _ (hparts u List.mem_cons_self) (Language.join_mem_kstar hrest) (ih hrest _)

theorem mem_one_kstar : w ∈ (one test)∗ ↔ ∀ c ∈ w, test c = true := by
  induction w with
  | nil => simp [Language.nil_mem_kstar]
  | cons c w ih =>
      rw [List.forall_mem_cons, ← ih]
      constructor
      · intro h
        rcases mem_kstar_cases.mp h with h | ⟨_, ⟨d, hd, rfl⟩, v, hv, hcons⟩
        · cases h
        · cases hcons
          exact ⟨hd, hv⟩
      · rintro ⟨hc, hw⟩
        exact append_mem_kstar (u := [c]) ⟨c, hc, rfl⟩ hw

theorem mem_one_mul_kstar : w ∈ one test * (one test)∗ ↔ w ≠ [] ∧ ∀ c ∈ w, test c = true := by
  rw [mem_one_mul]
  simp only [mem_one_kstar]
  constructor
  · rintro ⟨c, v, hc, hv, rfl⟩
    exact ⟨List.cons_ne_nil c v, List.forall_mem_cons.mpr ⟨hc, hv⟩⟩
  · rintro ⟨hne, hall⟩
    obtain ⟨c, v, rfl⟩ := List.exists_cons_of_ne_nil hne
    exact ⟨c, v, (List.forall_mem_cons.mp hall).1, (List.forall_mem_cons.mp hall).2, rfl⟩

/-! Character classes -/

theorem eq_iff_le {c d : Char} : c = d ↔ d ≤ c ∧ c ≤ d :=
  ⟨by rintro rfl; exact ⟨Char.le_refl c, Char.le_refl c⟩, fun h => Char.le_antisymm h.2 h.1⟩

theorem isAlpha_iff {c : Char} : c.isAlpha = true ↔ ('A' ≤ c ∧ c ≤ 'Z') ∨ 'a' ≤ c ∧ c ≤ 'z' := by
  change (decide ('A' ≤ c ∧ c ≤ 'Z') || (decide ('a' ≤ c) && decide (c ≤ 'z'))) = true ↔ _
  rw [Bool.or_eq_true, Bool.and_eq_true, decide_eq_true_eq, decide_eq_true_eq, decide_eq_true_eq]

theorem isWordStart_eq : Lexeme.isWordStart = inRanges [('A', 'Z'), ('a', 'z'), ('_', '_')] := by
  funext c
  rw [Bool.eq_iff_iff]
  simp [Lexeme.isWordStart, inRanges, isAlpha_iff, eq_iff_le, or_assoc]

theorem isWordPart_eq :
    Lexeme.isWordPart = inRanges [('A', 'Z'), ('a', 'z'), ('0', '9'), ('_', '_'), ('$', '$')] := by
  funext c
  rw [Bool.eq_iff_iff]
  simp [Lexeme.isWordPart, inRanges, Char.isAlphanum, isAlpha_iff, Char.isDigit, eq_iff_le, or_assoc,
    Char.le_def]

theorem isDigit_eq : Char.isDigit = inRanges [('0', '9')] := by
  funext c
  rw [Bool.eq_iff_iff]
  simp [inRanges, Char.isDigit, Char.le_def]

theorem isDigit_or_underscore_eq :
    (fun c : Char => c.isDigit || c == '_') = inRanges [('0', '9'), ('_', '_')] := by
  funext c
  rw [Bool.eq_iff_iff]
  simp [inRanges, Char.isDigit, eq_iff_le, Char.le_def]

theorem digitValue_any (k : Nat) (c : Char) : (digitValue? c).any (· < k) = true ↔
    (48 ≤ c.toNat ∧ c.toNat ≤ 57 ∧ c.toNat < 48 + k) ∨ (97 ≤ c.toNat ∧ c.toNat ≤ 102 ∧ c.toNat < 87 + k) ∨
      (65 ≤ c.toNat ∧ c.toNat ≤ 70 ∧ c.toNat < 55 + k) := by
  have hle (d e : Char) : d ≤ e ↔ d.toNat ≤ e.toNat := Iff.rfl
  simp only [digitValue?, hle, Char.reduceToNat]
  split_ifs <;>
    simp only [Option.any_some, Option.any_none, decide_eq_true_eq, Bool.false_eq_true, false_iff] <;> omega

end Grammar

namespace Base

open Grammar

/-- The ranges of the letters that announce a base. -/
def letterRanges : Base → List (Char × Char)
  | decimal => [('d', 'd'), ('D', 'D')]
  | hex => [('h', 'h'), ('H', 'H')]
  | octal => [('o', 'o'), ('O', 'O')]
  | binary => [('b', 'b'), ('B', 'B')]

/-- The ranges of the characters that may stand among the digits of a base. -/
def digitRanges : Base → List (Char × Char)
  | decimal => [('0', '9'), ('_', '_')]
  | hex => [('0', '9'), ('A', 'F'), ('a', 'f'), ('_', '_')]
  | octal => [('0', '7'), ('_', '_')]
  | binary => [('0', '1'), ('_', '_')]

theorem admits_eq (base : Base) : base.admits = inRanges base.digitRanges := by
  funext c
  have hadmits : base.admits c = true ↔ c = '_' ∨ (digitValue? c).any (· < base.radix) = true := by
    simp [admits, digit?]
  rw [Bool.eq_iff_iff, hadmits, digitValue_any]
  cases base <;> simp [inRanges, digitRanges, radix, eq_iff_le, Char.le_def, UInt32.le_iff_toNat_le] <;> omega

theorem ofLetter_eq_some {letter : Char} {base : Base} :
    ofLetter? letter = some base ↔ inRanges base.letterRanges letter = true := by
  have hletters : inRanges base.letterRanges letter = true ↔
      letter ∈ base.letterRanges.map Prod.fst := by
    cases base <;> simp [inRanges, letterRanges, eq_iff_le]
  rw [hletters]
  constructor
  · intro h
    unfold ofLetter? at h
    split at h <;> cases h <;> simp [letterRanges]
  · intro h
    cases base <;> simp [letterRanges] at h <;> rcases h with rfl | rfl <;> rfl

end Base

/-- The based literals are those of the four bases. -/
theorem TokenKind.mem_language_based {w : List Char} :
    w ∈ TokenKind.based.language ↔ ∃ base : Base, w ∈ Grammar.based base.letterRanges base.digitRanges := by
  simp only [language, Language.mem_add]
  constructor
  · rintro (((h | h) | h) | h)
    · exact ⟨.hex, h⟩
    · exact ⟨.octal, h⟩
    · exact ⟨.binary, h⟩
    · exact ⟨.decimal, h⟩
  · rintro ⟨base, h⟩
    cases base with
    | hex => exact .inl (.inl (.inl h))
    | octal => exact .inl (.inl (.inr h))
    | binary => exact .inl (.inr h)
    | decimal => exact .inr h

end BluespecDocs
