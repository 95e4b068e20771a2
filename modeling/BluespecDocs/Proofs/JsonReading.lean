import BluespecDocs.Base
import BluespecDocs.Json
import Mathlib.Data.List.Forall2

/-!
Reading JSON as the standard has it: space between any two signs, every escape, pairs of surrogates, no control
characters inside quotes, no leading zeros and nothing behind the value. Numbers other than natural ones have
no value here. What is written is read back as it was.
-/

namespace BluespecDocs

namespace Json

/-- The characters that may stand between the signs of a text. -/
def isSpace (c : Char) : Bool := c == ' ' || c == '\t' || c == '\n' || c == '\r'

def skipSpace (cs : List Char) : List Char := cs.dropWhile isSpace

/-- The character that a letter behind a backslash stands for. -/
def unescape? : Char → Option Char
  | '"' => some '"'
  | '\\' => some '\\'
  | '/' => some '/'
  | 'b' => some '\x08'
  | 'f' => some '\x0c'
  | 'n' => some '\n'
  | 'r' => some '\r'
  | 't' => some '\t'
  | _ => none

/-- Reads four hexadecimal digits. -/
def readUnit? : List Char → Option (Nat × List Char)
  | a :: b :: c :: d :: rest => do
    let digits ← [a, b, c, d].mapM digitValue?
    return (digits.foldl (16 * · + ·) 0, rest)
  | _ => none

/-- Reads the digits of an escaped code point. Beyond the first plane it takes two escapes, of which only the
first has lost its mark. -/
def readCodePoint? (cs : List Char) : Option (Char × List Char) := do
  let (unit, rest) ← readUnit? cs
  if 0xD800 ≤ unit ∧ unit < 0xDC00 then
    match rest with
    | '\\' :: 'u' :: rest =>
      let (low, rest) ← readUnit? rest
      if 0xDC00 ≤ low ∧ low < 0xE000 then
        return (Char.ofNat (0x10000 + 0x400 * (unit - 0xD800) + (low - 0xDC00)), rest)
      else none
    | _ => none
  else if 0xDC00 ≤ unit ∧ unit < 0xE000 then none
  else return (Char.ofNat unit, rest)

/-- Reads one character inside quotes. -/
def readChar? : List Char → Option (Char × List Char)
  | [] => none
  | c :: rest =>
    if c = '\\' then
      match rest with
      | 'u' :: rest => readCodePoint? rest
      | c :: rest => (unescape? c).map (·, rest)
      | [] => none
    else if c.toNat < 0x20 then none
    else some (c, rest)

/-- Reads up to and with the closing quote, at most `n` characters and the quote. -/
def readChars? : Nat → List Char → Option (List Char × List Char)
  | _, '"' :: rest => some ([], rest)
  | 0, _ => none
  | n + 1, cs => do
    let (c, rest) ← readChar? cs
    let (others, rest) ← readChars? n rest
    return (c :: others, rest)

/-- Reads a string from behind its opening quote. -/
def readString? (cs : List Char) : Option (String × List Char) :=
  (readChars? cs.length cs).map fun (s, rest) => (String.ofList s, rest)

/-- Whether a number that starts with digits goes on: as a longer one, or as one that is not natural. -/
def goesOn (c : Char) : Bool := c.isDigit || c == '.' || c == 'e' || c == 'E'

/-- Reads a natural number. -/
def readNat? (cs : List Char) : Option (Nat × List Char) :=
  let digits := cs.takeWhile Char.isDigit
  let rest := cs.dropWhile Char.isDigit
  if digits = [] ∨ digits.head? = some '0' ∧ digits ≠ ['0'] ∨ rest.head?.any goesOn then none
  else some (Nat.ofDigitChars 10 digits 0, rest)

variable {α : Type}

/-- Reads items with commas between them up to and with a closing sign, at most `n` of them. -/
def readMore? (item : List Char → Option (α × List Char)) (closing : Char) :
    Nat → List Char → Option (List α × List Char)
  | 0, _ => none
  | n + 1, cs => do
    let (first, rest) ← item cs
    match skipSpace rest with
    | ',' :: rest =>
      let (others, rest) ← readMore? item closing n rest
      return (first :: others, rest)
    | c :: rest => if c = closing then some ([first], rest) else none
    | [] => none

/-- Reads a sequence from behind its opening sign. -/
def readSequence? (item : List Char → Option (α × List Char)) (closing : Char) (cs : List Char) :
    Option (List α × List Char) :=
  if (skipSpace cs).head? = some closing then some ([], (skipSpace cs).tail)
  else readMore? item closing cs.length cs

/-- Reads a key, a colon and a value. -/
def readField? (value : List Char → Option (Json × List Char)) (cs : List Char) :
    Option ((String × Json) × List Char) :=
  match skipSpace cs with
  | '"' :: rest => do
    let (key, rest) ← readString? rest
    match skipSpace rest with
    | ':' :: rest =>
      let (value, rest) ← value rest
      return ((key, value), rest)
    | _ => none
  | _ => none

/-- Reads a value with at most `n` levels of lists and objects around one another. -/
def readTo? : Nat → List Char → Option (Json × List Char)
  | 0, _ => none
  | n + 1, cs =>
    match skipSpace cs with
    | 'n' :: 'u' :: 'l' :: 'l' :: rest => some (null, rest)
    | 't' :: 'r' :: 'u' :: 'e' :: rest => some (bool true, rest)
    | 'f' :: 'a' :: 'l' :: 's' :: 'e' :: rest => some (bool false, rest)
    | '"' :: rest => (readString? rest).map fun (s, rest) => (str s, rest)
    | '[' :: rest => (readSequence? (readTo? n) ']' rest).map fun (items, rest) => (list items, rest)
    | '\x7b' :: rest =>
      (readSequence? (readField? (readTo? n)) '\x7d' rest).map fun (fields, rest) => (object fields, rest)
    | cs => (readNat? cs).map fun (n, rest) => (nat n, rest)

/-- The value of a text. No text has more levels than characters. -/
def parse? (text : String) : Option Json := do
  let (value, rest) ← readTo? text.toList.length text.toList
  if skipSpace rest = [] then return value else none

/-! Characters and strings -/

theorem digitValue_digitChar : ∀ d < 16, digitValue? (Nat.digitChar d) = some d := by decide

theorem readUnit_control {n : Nat} (hn : n < 0x20) (rest : List Char) :
    readUnit? ('0' :: '0' :: Nat.digitChar (n / 16) :: Nat.digitChar (n % 16) :: rest) = some (n, rest) := by
  have hhigh := digitValue_digitChar (n / 16) (by omega)
  have hlow := digitValue_digitChar (n % 16) (by omega)
  have hzero : digitValue? '0' = some 0 := by decide
  simp only [readUnit?, List.mapM_cons, List.mapM_nil, hzero, hhigh, hlow]
  change some (16 * (16 * (16 * (16 * 0 + 0) + 0) + n / 16) + n % 16, rest) = _
  congr 2
  omega

/-- The three ways to write a character: with a letter, with its code, and as it is. -/
theorem escape_cases (c : Char) :
    (∃ letter, escape c = ['\\', letter] ∧ letter ≠ 'u' ∧ unescape? letter = some c) ∨
    (c.toNat < 0x20 ∧
      escape c = ['\\', 'u', '0', '0', Nat.digitChar (c.toNat / 16), Nat.digitChar (c.toNat % 16)]) ∨
    (c ≠ '"' ∧ c ≠ '\\' ∧ ¬ c.toNat < 0x20 ∧ escape c = [c]) := by
  unfold escape
  split
  case h_8 hquote hbackslash _ _ _ _ _ =>
    refine .inr ?_
    by_cases hcontrol : c.toNat < 0x20
    · exact .inl ⟨hcontrol, if_pos hcontrol⟩
    · exact .inr ⟨hquote, hbackslash, hcontrol, if_neg hcontrol⟩
  all_goals exact .inl ⟨_, rfl, by decide, rfl⟩

theorem readChar_escape (c : Char) (rest : List Char) : readChar? (escape c ++ rest) = some (c, rest) := by
  rcases escape_cases c with ⟨letter, hescape, hletter, hread⟩ | ⟨hcontrol, hescape⟩ |
    ⟨-, hbackslash, hcontrol, hescape⟩
  · rw [hescape, List.cons_append, List.singleton_append, readChar?, if_pos rfl, hread, Option.map_some]
    exact hletter
  · rw [hescape]
    change readCodePoint? ('0' :: '0' :: Nat.digitChar (c.toNat / 16) :: Nat.digitChar (c.toNat % 16) :: rest) = _
    rw [readCodePoint?, readUnit_control hcontrol]
    change (if 0xD800 ≤ c.toNat ∧ c.toNat < 0xDC00 then _ else _) = _
    rw [if_neg (by omega), if_neg (by omega), Char.ofNat_toNat]
    rfl
  · rw [hescape]
    exact (if_neg hbackslash).trans (if_neg hcontrol)

theorem head_escape (c : Char) (rest : List Char) : ∃ d cs, escape c ++ rest = d :: cs ∧ d ≠ '"' := by
  rcases escape_cases c with ⟨letter, hescape, -⟩ | ⟨-, hescape⟩ | ⟨hquote, -, -, hescape⟩
  · exact ⟨'\\', _, by rw [hescape]; rfl, by decide⟩
  · exact ⟨'\\', _, by rw [hescape]; rfl, by decide⟩
  · exact ⟨c, rest, by rw [hescape]; rfl, hquote⟩

theorem readChars_succ {d : Char} (hd : d ≠ '"') (n : Nat) (cs : List Char) : readChars? (n + 1) (d :: cs) =
    (readChar? (d :: cs)).bind fun found =>
      (readChars? n found.2).map fun others => (found.1 :: others.1, others.2) := by
  rw [readChars?]
  · cases readChar? (d :: cs) with
    | none => rfl
    | some found =>
        obtain ⟨c, rest⟩ := found
        rw [Option.bind_some]
        change ((readChars? n rest).bind fun others => some (c :: others.1, others.2)) = _
        cases readChars? n rest <;> rfl
  · rintro rest hcons
    exact hd (List.cons.inj hcons).1

theorem readChars_escape (s rest : List Char) {n : Nat} (hn : s.length ≤ n) :
    readChars? n (s.flatMap escape ++ '"' :: rest) = some (s, rest) := by
  induction s generalizing n with
  | nil => cases n <;> rfl
  | cons c s ih =>
      obtain ⟨n, rfl⟩ : ∃ m, n = m + 1 := ⟨n - 1, by rw [List.length_cons] at hn; omega⟩
      obtain ⟨d, cs, hcons, hd⟩ := head_escape c (s.flatMap escape ++ '"' :: rest)
      rw [List.flatMap_cons, List.append_assoc, hcons, readChars_succ hd, ← hcons, readChar_escape,
        Option.bind_some, ih (Nat.le_of_succ_le_succ hn), Option.map_some]

theorem length_le_flatMap_escape (s : List Char) : s.length ≤ (s.flatMap escape).length := by
  induction s with
  | nil => exact Nat.zero_le _
  | cons c s ih =>
      obtain ⟨d, cs, hcons, -⟩ := head_escape c []
      rw [List.append_nil] at hcons
      rw [List.flatMap_cons, hcons, List.length_append, List.length_cons, List.length_cons]
      omega

theorem readString_quote (s : String) (rest : List Char) :
    readString? (s.toList.flatMap escape ++ '"' :: rest) = some (s, rest) := by
  have hlength : s.toList.length ≤ (s.toList.flatMap escape ++ '"' :: rest).length := by
    rw [List.length_append]
    exact Nat.le_add_right_of_le (length_le_flatMap_escape _)
  rw [readString?, readChars_escape _ _ hlength]
  change some (String.ofList s.toList, rest) = _
  rw [String.ofList_toList]

/-! Numbers -/

/-- No number goes on here. -/
def Ends (rest : List Char) : Prop := ∀ c ∈ rest.head?, goesOn c = false

theorem ends_cons {c : Char} (h : goesOn c = false) (rest : List Char) : Ends (c :: rest) := by
  intro d hd
  cases hd
  exact h

/-- Only zero is written with a zero in front. -/
theorem toDigits_of_head {n : Nat} (h : (Nat.toDigits 10 n).head? = some '0') : Nat.toDigits 10 n = ['0'] := by
  induction n using Nat.strongRecOn with
  | ind n ih =>
      rw [Nat.toDigits_eq_if (by decide)] at h ⊢
      split at h
      · next hn =>
          rw [if_pos hn]
          exact congrArg (· :: []) (Option.some.inj h)
      · next hn =>
          rw [List.head?_append_of_ne_nil _ Nat.toDigits_ne_nil] at h
          have hzero := @Nat.ofDigitChars_toDigits 10 (n / 10) (by decide) (by decide)
          rw [ih (n / 10) (by omega) h] at hzero
          have hquotient : 0 = n / 10 := hzero
          omega

theorem dropWhile_of_head {test : Char → Bool} {rest : List Char} (h : ∀ c ∈ rest.head?, test c = false) :
    rest.dropWhile test = rest := by
  cases rest with
  | nil => rfl
  | cons c rest => exact List.dropWhile_cons_of_neg (by rw [h c rfl]; exact Bool.false_ne_true)

theorem takeWhile_of_head {test : Char → Bool} {rest : List Char} (h : ∀ c ∈ rest.head?, test c = false) :
    rest.takeWhile test = [] := by
  cases rest with
  | nil => rfl
  | cons c rest => exact List.takeWhile_cons_of_neg (by rw [h c rfl]; exact Bool.false_ne_true)

theorem readNat_toDigits (n : Nat) {rest : List Char} (hrest : Ends rest) :
    readNat? (Nat.toDigits 10 n ++ rest) = some (n, rest) := by
  have hdigits : ∀ d ∈ Nat.toDigits 10 n, d.isDigit = true := fun d hd =>
    Nat.isDigit_of_mem_toDigits (by decide) (by decide) hd
  have hhead : ∀ c ∈ rest.head?, c.isDigit = false := by
    intro c hc
    have hgoes := hrest c hc
    simp only [goesOn, Bool.or_eq_false_iff] at hgoes
    exact hgoes.1.1.1
  have hany : rest.head?.any goesOn = false := by
    cases hc : rest.head? with
    | none => rfl
    | some c => exact hrest c hc
  rw [readNat?, List.takeWhile_append_of_pos hdigits, List.dropWhile_append_of_pos hdigits,
    takeWhile_of_head hhead, dropWhile_of_head hhead, List.append_nil]
  rw [Nat.ofDigitChars_toDigits (by decide) (by decide), if_neg]
  rintro (hnil | ⟨hzero, hne⟩ | hgoes)
  · exact Nat.toDigits_ne_nil hnil
  · exact hne (toDigits_of_head hzero)
  · rw [hany] at hgoes
    cases hgoes

/-! Sequences -/

/-- An item reader reads a text as a value: behind any space, and whatever ends numbers follows. -/
def ReadsAs (item : List Char → Option (α × List Char)) (text : List Char) (a : α) : Prop :=
  ∀ gap rest, (∀ c ∈ gap, isSpace c = true) → Ends rest → item (gap ++ (text ++ rest)) = some (a, rest)

theorem skipSpace_append {gap : List Char} (hgap : ∀ c ∈ gap, isSpace c = true) (rest : List Char) :
    skipSpace (gap ++ rest) = skipSpace rest := List.dropWhile_append_of_pos hgap

theorem skipSpace_cons {c : Char} (hc : isSpace c = false) (rest : List Char) :
    skipSpace (c :: rest) = c :: rest := dropWhile_of_head fun d hd => by cases hd; exact hc

theorem isSpace_of_mem_newline {level : Nat} : ∀ c ∈ newline level, isSpace c = true := by
  rw [newline, List.forall_mem_cons]
  refine ⟨by decide, fun c hc => ?_⟩
  rw [List.eq_of_mem_replicate hc]
  decide

theorem ends_newline (level : Nat) (rest : List Char) : Ends (newline level ++ rest) :=
  ends_cons (by decide) _

variable {item : List Char → Option (α × List Char)} {closing : Char} {texts : List (List Char)} {as : List α}

theorem readMore_step {cs rest : List Char} {a : α} (hitem : item cs = some (a, ',' :: rest)) (n : Nat) :
    readMore? item closing (n + 1) cs =
      (readMore? item closing n rest).map fun others => (a :: others.1, others.2) := by
  rw [readMore?, hitem]
  change ((readMore? item closing n rest).bind fun others => some (a :: others.1, others.2)) = _
  cases readMore? item closing n rest <;> rfl

theorem readMore_last {cs gap rest : List Char} {a : α} (hgap : ∀ c ∈ gap, isSpace c = true)
    (hspace : isSpace closing = false) (hcomma : closing ≠ ',')
    (hitem : item cs = some (a, gap ++ closing :: rest)) (n : Nat) :
    readMore? item closing (n + 1) cs = some ([a], rest) := by
  have hskip : skipSpace (gap ++ closing :: rest) = closing :: rest := by
    rw [skipSpace_append hgap, skipSpace_cons hspace]
  rw [readMore?, hitem]
  dsimp only [Option.bind_eq_bind, Option.bind_some]
  rw [hskip]
  split
  · next hcons => exact absurd (List.cons.inj hcons).1 hcomma
  · next hcons =>
      cases hcons
      rw [if_pos rfl]
  · next hcons => cases hcons

/-- Written items are read back one after the other. -/
theorem readMore_intercalate (hspace : isSpace closing = false) (hcomma : closing ≠ ',') {gap gap' : List Char}
    (hgap : ∀ c ∈ gap, isSpace c = true) (hgap' : ∀ c ∈ gap', isSpace c = true) {rest : List Char}
    (hends : Ends (gap' ++ closing :: rest)) (h : List.Forall₂ (ReadsAs item) texts as) (hne : texts ≠ [])
    {n : Nat} (hn : texts.length ≤ n) :
    readMore? item closing n (gap ++ (List.intercalate (',' :: gap) texts ++ (gap' ++ closing :: rest))) =
      some (as, rest) := by
  induction h generalizing n with
  | nil => exact absurd rfl hne
  | @cons text a texts as htext hrest ih =>
      obtain ⟨n, rfl⟩ : ∃ m, n = m + 1 := ⟨n - 1, by simp only [List.length_cons] at hn; omega⟩
      cases texts with
      | nil =>
          cases hrest
          rw [List.intercalate_singleton]
          exact readMore_last hgap' hspace hcomma (htext gap _ hgap hends) n
      | cons next texts =>
          have hitem := htext gap (',' :: (gap ++ (List.intercalate (',' :: gap) (next :: texts) ++
            (gap' ++ closing :: rest)))) hgap (ends_cons (by decide) _)
          rw [List.intercalate_cons_cons, List.append_assoc, List.append_assoc, List.cons_append,
            readMore_step hitem, ih (List.cons_ne_nil _ _) (Nat.le_of_succ_le_succ hn), Option.map_some]

theorem length_le_intercalate (sep : List Char) {text : List Char} (h : text ∈ texts) :
    text.length ≤ (List.intercalate sep texts).length := by
  induction texts with
  | nil => cases h
  | cons first texts ih =>
      cases texts with
      | nil =>
          obtain rfl := List.mem_singleton.mp h
          exact Nat.le_of_eq (congrArg List.length List.intercalate_singleton.symm)
      | cons next texts =>
          rw [List.intercalate_cons_cons, List.length_append, List.length_append]
          rcases List.mem_cons.mp h with rfl | h
          · omega
          · have hrest := ih h
            omega

theorem count_le_intercalate (sep : List Char) (h : ∀ text ∈ texts, text ≠ []) :
    texts.length ≤ (List.intercalate sep texts).length := by
  induction texts with
  | nil => exact Nat.zero_le _
  | cons first texts ih =>
      obtain ⟨hfirst, htexts⟩ := List.forall_mem_cons.mp h
      have hpos := List.length_pos_of_ne_nil hfirst
      have hrest := ih htexts
      cases texts with
      | nil =>
          rw [List.intercalate_singleton]
          exact hpos
      | cons next texts =>
          rw [List.intercalate_cons_cons, List.length_append, List.length_append, List.length_cons]
          omega

theorem length_lt_enclose (opening closing : Char) (level : Nat) {text : List Char} (h : text ∈ texts) :
    text.length < (enclose opening closing level texts).length := by
  have hle := length_le_intercalate (',' :: newline (level + 1)) h
  obtain ⟨first, others, rfl⟩ := List.exists_cons_of_ne_nil (List.ne_nil_of_mem h)
  rw [enclose]
  simp only [List.length_cons, List.length_append, List.cons_append]
  omega

/-- Whether a text can be the first item of a sequence: no space in front, and no closing sign. -/
def Starts (closing : Char) (text : List Char) : Prop :=
  ∃ c cs, text = c :: cs ∧ isSpace c = false ∧ c ≠ closing

/-- A first item is not taken for the end of an empty sequence. -/
theorem head_skipSpace_intercalate {text : List Char} (h : Starts closing text) {gap : List Char}
    (hgap : ∀ c ∈ gap, isSpace c = true) (sep rest : List Char) :
    (skipSpace (gap ++ (List.intercalate sep (text :: texts) ++ rest))).head? ≠ some closing := by
  obtain ⟨c, cs, rfl, hc, hclosing⟩ := h
  obtain ⟨others, hothers⟩ : ∃ others, List.intercalate sep ((c :: cs) :: texts) = c :: others := by
    cases texts with
    | nil => exact ⟨cs, List.intercalate_singleton⟩
    | cons next texts => exact ⟨_, by rw [List.intercalate_cons_cons]; rfl⟩
  rw [skipSpace_append hgap, hothers, List.cons_append, skipSpace_cons hc]
  exact fun h => hclosing (Option.some.inj h)

theorem readSequence_enclose (hspace : isSpace closing = false) (hcomma : closing ≠ ',')
    (h : List.Forall₂ (ReadsAs item) texts as) (hstarts : ∀ text ∈ texts, Starts closing text) (opening : Char)
    (level : Nat) (rest : List Char) :
    ∃ inner, enclose opening closing level texts ++ rest = opening :: inner ∧
      readSequence? item closing inner = some (as, rest) := by
  cases h with
  | nil =>
      refine ⟨closing :: rest, rfl, ?_⟩
      rw [readSequence?, skipSpace_cons hspace]
      exact if_pos rfl
  | @cons text a texts as htext hrest =>
      have hitems := List.Forall₂.cons htext hrest
      have hcount : (text :: texts).length ≤
          (List.intercalate (',' :: newline (level + 1)) (text :: texts)).length :=
        count_le_intercalate _ fun other hother => by
          obtain ⟨c, cs, rfl, -⟩ := hstarts other hother
          exact List.cons_ne_nil _ _
      refine ⟨newline (level + 1) ++ (List.intercalate (',' :: newline (level + 1)) (text :: texts) ++
        (newline level ++ closing :: rest)), by simp [enclose], ?_⟩
      rw [readSequence?, if_neg (head_skipSpace_intercalate (hstarts text List.mem_cons_self)
        isSpace_of_mem_newline _ _)]
      refine readMore_intercalate hspace hcomma isSpace_of_mem_newline isSpace_of_mem_newline
        (ends_newline _ _) hitems (List.cons_ne_nil _ _) ?_
      simp only [List.length_append]
      omega

/-! Values -/

theorem readTo_append {gap : List Char} (hgap : ∀ c ∈ gap, isSpace c = true) (n : Nat) (cs : List Char) :
    readTo? n (gap ++ cs) = readTo? n cs := by
  cases n with
  | zero => rfl
  | succ n => rw [readTo?, readTo?, skipSpace_append hgap]

theorem isSpace_of_isDigit {c : Char} (hc : c.isDigit = true) : isSpace c = false := by
  cases hspace : isSpace c with
  | false => rfl
  | true =>
      simp only [isSpace, Bool.or_eq_true, beq_iff_eq] at hspace
      rcases hspace with ((rfl | rfl) | rfl) | rfl <;> exact absurd hc (by decide)

theorem readTo_digit {c : Char} (hc : c.isDigit = true) (n : Nat) (cs : List Char) :
    readTo? (n + 1) (c :: cs) = (readNat? (c :: cs)).map fun found => (nat found.1, found.2) := by
  rw [readTo?, skipSpace_cons (isSpace_of_isDigit hc)]
  split
  case h_7 => rfl
  all_goals
    next hcons =>
      cases hcons
      exact absurd hc (by decide)

theorem enclose_eq_cons (opening closing : Char) (level : Nat) (texts : List (List Char)) :
    ∃ inner, enclose opening closing level texts = opening :: inner := by
  cases texts with
  | nil => exact ⟨_, rfl⟩
  | cons text texts => exact ⟨_, rfl⟩

theorem exists_toDigits (n : Nat) : ∃ c cs, Nat.toDigits 10 n = c :: cs ∧ c.isDigit = true := by
  obtain ⟨c, cs, hdigits⟩ := List.exists_cons_of_ne_nil (@Nat.toDigits_ne_nil n 10)
  have hmem : c ∈ Nat.toDigits 10 n := hdigits ▸ List.mem_cons_self
  exact ⟨c, cs, hdigits, Nat.isDigit_of_mem_toDigits (by decide) (by decide) hmem⟩

theorem starts_write (level : Nat) (value : Json) : Starts ']' (write level value) := by
  cases value with
  | null => exact ⟨_, _, by rw [write], by decide, by decide⟩
  | bool value => cases value <;> exact ⟨_, _, by rw [write], by decide, by decide⟩
  | nat n =>
      obtain ⟨c, cs, hdigits, hc⟩ := exists_toDigits n
      refine ⟨c, cs, by rw [write, hdigits], isSpace_of_isDigit hc, ?_⟩
      rintro rfl
      exact absurd hc (by decide)
  | str s => exact ⟨_, _, by rw [write, quote]; rfl, by decide, by decide⟩
  | list items =>
      obtain ⟨inner, hinner⟩ := enclose_eq_cons '[' ']' level (writeItems (level + 1) items)
      exact ⟨_, inner, by rw [write, hinner], by decide, by decide⟩
  | object fields =>
      obtain ⟨inner, hinner⟩ := enclose_eq_cons '\x7b' '\x7d' level (writeFields (level + 1) fields)
      exact ⟨_, inner, by rw [write, hinner], by decide, by decide⟩

theorem starts_writeItems {level : Nat} {items : List Json} : ∀ text ∈ writeItems level items, Starts ']' text := by
  induction items with
  | nil =>
      rw [writeItems]
      exact List.forall_mem_nil _
  | cons item items ih =>
      rw [writeItems, List.forall_mem_cons]
      exact ⟨starts_write level item, ih⟩

theorem starts_writeFields {level : Nat} {fields : List (String × Json)} :
    ∀ text ∈ writeFields level fields, Starts '\x7d' text := by
  induction fields with
  | nil =>
      rw [writeFields]
      exact List.forall_mem_nil _
  | cons field fields ih =>
      rw [writeFields, List.forall_mem_cons]
      exact ⟨⟨'"', _, by rw [quote]; rfl, by decide, by decide⟩, ih⟩

theorem readsAs_field {value : Json} {text : List Char} {read : List Char → Option (Json × List Char)}
    (h : ReadsAs read text value) (key : String) :
    ReadsAs (readField? read) (quote key ++ ':' :: ' ' :: text) (key, value) := by
  intro gap rest hgap hends
  have hskip : skipSpace (gap ++ ((quote key ++ ':' :: ' ' :: text) ++ rest)) =
      '"' :: (key.toList.flatMap escape ++ '"' :: (':' :: ([' '] ++ (text ++ rest)))) := by
    rw [skipSpace_append hgap, quote]
    simp only [List.cons_append, List.append_assoc, List.nil_append]
    exact skipSpace_cons (by decide) _
  have hvalue := h [' '] rest (List.forall_mem_singleton.mpr (by decide)) hends
  rw [readField?, hskip]
  change ((readString? (key.toList.flatMap escape ++ '"' :: (':' :: ([' '] ++ (text ++ rest))))).bind _) = _
  rw [readString_quote]
  change ((read ([' '] ++ (text ++ rest))).bind fun found => some ((key, found.1), found.2)) = _
  rw [hvalue, Option.bind_some]

/-- A value that is read from its first sign on is read behind any space. -/
theorem readsAs_of_readTo {n : Nat} {text : List Char} {value : Json}
    (h : ∀ rest, Ends rest → readTo? (n + 1) (text ++ rest) = some (value, rest)) :
    ReadsAs (readTo? (n + 1)) text value := by
  intro gap rest hgap hends
  rw [readTo_append hgap]
  exact h rest hends

theorem readsAs_nat (m n : Nat) : ReadsAs (readTo? (n + 1)) (Nat.toDigits 10 m) (nat m) := by
  refine readsAs_of_readTo fun rest hends => ?_
  obtain ⟨c, cs, hdigits, hc⟩ := exists_toDigits m
  rw [hdigits, List.cons_append, readTo_digit hc, ← List.cons_append, ← hdigits, readNat_toDigits m hends,
    Option.map_some]

theorem readsAs_str (s : String) (n : Nat) : ReadsAs (readTo? (n + 1)) (quote s) (str s) := by
  refine readsAs_of_readTo fun rest _ => ?_
  have hquote : quote s ++ rest = '"' :: (s.toList.flatMap escape ++ '"' :: rest) := by simp [quote]
  rw [hquote]
  change (readString? (s.toList.flatMap escape ++ '"' :: rest)).map _ = _
  rw [readString_quote, Option.map_some]

theorem readsAs_list {n level : Nat} {items : List Json}
    (h : List.Forall₂ (ReadsAs (readTo? n)) (writeItems (level + 1) items) items) :
    ReadsAs (readTo? (n + 1)) (write level (list items)) (list items) := by
  refine readsAs_of_readTo fun rest _ => ?_
  obtain ⟨inner, hinner, hread⟩ :=
    readSequence_enclose (by decide) (by decide) h starts_writeItems '[' level rest
  rw [write, hinner]
  change (readSequence? (readTo? n) ']' inner).map _ = _
  rw [hread, Option.map_some]

theorem readsAs_object {n level : Nat} {fields : List (String × Json)}
    (h : List.Forall₂ (ReadsAs (readField? (readTo? n))) (writeFields (level + 1) fields) fields) :
    ReadsAs (readTo? (n + 1)) (write level (object fields)) (object fields) := by
  refine readsAs_of_readTo fun rest _ => ?_
  obtain ⟨inner, hinner, hread⟩ :=
    readSequence_enclose (by decide) (by decide) h starts_writeFields '\x7b' level rest
  rw [write, hinner]
  change (readSequence? (readField? (readTo? n)) '\x7d' inner).map _ = _
  rw [hread, Option.map_some]

mutual

/-- A written value is read back with as many levels as its text has characters. -/
theorem readsAs_write : (value : Json) → (level n : Nat) → (write level value).length ≤ n →
    ReadsAs (readTo? n) (write level value) value
  | value, level, 0, hn => by
      obtain ⟨c, cs, hcons, -⟩ := starts_write level value
      rw [hcons] at hn
      exact absurd hn (Nat.not_succ_le_zero _)
  | null, level, n + 1, _ => by
      rw [write]
      exact readsAs_of_readTo fun rest _ => rfl
  | bool true, level, n + 1, _ => by
      rw [write]
      exact readsAs_of_readTo fun rest _ => rfl
  | bool false, level, n + 1, _ => by
      rw [write]
      exact readsAs_of_readTo fun rest _ => rfl
  | nat m, level, n + 1, _ => by
      rw [write]
      exact readsAs_nat m n
  | str s, level, n + 1, _ => by
      rw [write]
      exact readsAs_str s n
  | list items, level, n + 1, hn => by
      rw [write] at hn
      refine readsAs_list (readsAs_items items (level + 1) n fun text htext => ?_)
      have hlt := length_lt_enclose '[' ']' level htext
      omega
  | object fields, level, n + 1, hn => by
      rw [write] at hn
      refine readsAs_object (readsAs_fields fields (level + 1) n fun text htext => ?_)
      have hlt := length_lt_enclose '\x7b' '\x7d' level htext
      omega

theorem readsAs_items : (items : List Json) → (level n : Nat) →
    (∀ text ∈ writeItems level items, text.length ≤ n) →
    List.Forall₂ (ReadsAs (readTo? n)) (writeItems level items) items
  | [], level, n, _ => by
      rw [writeItems]
      exact .nil
  | item :: items, level, n, hn => by
      rw [writeItems] at hn ⊢
      obtain ⟨hitem, hitems⟩ := List.forall_mem_cons.mp hn
      exact .cons (readsAs_write item level n hitem) (readsAs_items items level n hitems)

theorem readsAs_fields : (fields : List (String × Json)) → (level n : Nat) →
    (∀ text ∈ writeFields level fields, text.length ≤ n) →
    List.Forall₂ (ReadsAs (readField? (readTo? n))) (writeFields level fields) fields
  | [], level, n, _ => by
      rw [writeFields]
      exact .nil
  | (key, value) :: fields, level, n, hn => by
      rw [writeFields] at hn ⊢
      obtain ⟨hfield, hfields⟩ := List.forall_mem_cons.mp hn
      rw [List.length_append, List.length_cons, List.length_cons] at hfield
      exact .cons (readsAs_field (readsAs_write value level n (by omega)) key)
        (readsAs_fields fields level n hfields)

end

/-- Every value is the value of its text. -/
theorem parse_render (value : Json) : parse? (render value) = some value := by
  have hread := readsAs_write value 0 _ (Nat.le_refl _) [] [] (List.forall_mem_nil _) (fun c hc => by cases hc)
  rw [List.nil_append, List.append_nil] at hread
  rw [parse?, render, String.toList_ofList, hread]
  rfl

example : (parse? " \x7b \"\\u00e9\\/\" :[ 10,\ttrue , \"\\ud83d\\ude00\"]\n\x7d\r").map render =
    some "\x7b\n  \"é/\": [\n    10,\n    true,\n    \"😀\"\n  ]\n\x7d" := by decide +kernel

end Json

end BluespecDocs
