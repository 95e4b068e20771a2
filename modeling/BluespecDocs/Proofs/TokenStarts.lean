import BluespecDocs.Proofs.LongestMatch

/-!
The first token of a text by how the text starts. Two slashes start a line comment, a slash and a star start a
block comment, and a quote starts a string. A token with any other start ends at the first layout, and what
stands behind that layout has no influence on it.
-/

namespace BluespecDocs

namespace Token

/-- The layout characters: space, tab, carriage return, newline and form feed. -/
def layoutChars : List Char := [' ', '\t', '\r', '\n', '\x0c']

theorem isLayout_iff {c : Char} : isLayout c = true ↔ c ∈ layoutChars := by
  change _ ↔ c ∈ [' ', '\t', '\r', '\n', '\x0c']
  simp [isLayout, or_assoc]

-- For `decide`, which may take a quantifier over characters for one over all of them.
theorem forall_layoutChars {p : Char → Prop} :
    (∀ g ∈ layoutChars, p g) ↔ p ' ' ∧ p '\t' ∧ p '\r' ∧ p '\n' ∧ p '\x0c' := by
  change (∀ g ∈ [' ', '\t', '\r', '\n', '\x0c'], p g) ↔ _
  simp only [List.forall_mem_cons, List.not_mem_nil, false_implies, implies_true, and_true]

theorem ne_of_isLayout {c d : Char} (hc : isLayout c) (hd : isLayout d = false) : c ≠ d := by
  rintro rfl
  rw [hc] at hd
  cases hd

end Token

open Token

namespace Lexeme

/-- A reach that takes layout for the end of the text. -/
def EndsAtLayout (reach : List Char → Nat) : Prop :=
  ∀ a g b, isLayout g → reach (a ++ g :: b) = reach a

namespace EndsAtLayout

variable {reach : List Char → Nat}

theorem comp (h : EndsAtLayout reach) (f : Nat → Nat) : EndsAtLayout fun cs => f (reach cs) :=
  fun a g b hg => congrArg f (h a g b hg)

theorem zero_of (h : ∀ cs, reach cs = 0) : EndsAtLayout reach := fun a g b _ => by rw [h, h]

theorem of_cons (hnil : ∀ g ∈ layoutChars, ∀ b, reach (g :: b) = reach [])
    (hcons : ∀ c, EndsAtLayout fun cs => reach (c :: cs)) : EndsAtLayout reach := by
  intro a g b hg
  cases a with
  | nil => exact hnil g (isLayout_iff.mp hg) b
  | cons c a => exact hcons c a g b hg

/-- Only texts that start with one character have a lexeme. -/
theorem of_head (x : Char) (hx : isLayout x = false) (hnil : reach [] = 0)
    (hother : ∀ c cs, c ≠ x → reach (c :: cs) = 0) (h : EndsAtLayout fun cs => reach (x :: cs)) :
    EndsAtLayout reach := by
  refine of_cons (fun g hg b => ?_) fun c => ?_
  · rw [hother g b (ne_of_isLayout (isLayout_iff.mpr hg) hx), hnil]
  · by_cases hc : c = x
    · rwa [hc]
    · exact zero_of fun cs => hother c cs hc

end EndsAtLayout

theorem takeWhile_endsAtLayout (test : Char → Bool) (htest : ∀ g ∈ layoutChars, test g = false) :
    EndsAtLayout fun cs => (cs.takeWhile test).length := by
  refine fun a g b hg => ?_
  have hstop : (g :: b).takeWhile test = [] :=
    List.takeWhile_cons_of_neg (by rw [htest g (isLayout_iff.mp hg)]; decide)
  dsimp only
  rw [List.takeWhile_append, hstop, List.append_nil]
  split
  · next hall => exact hall.symm
  · rfl

theorem word_endsAtLayout : EndsAtLayout word := by
  have hstart : ∀ g ∈ layoutChars, isWordStart g = false := forall_layoutChars.mpr (by decide)
  refine .of_cons (fun g hg b => if_neg (by rw [hstart g hg]; decide)) fun c => ?_
  exact (takeWhile_endsAtLayout isWordPart (forall_layoutChars.mpr (by decide))).comp
    fun n => if isWordStart c then 1 + n else 0

theorem number_endsAtLayout : EndsAtLayout number := by
  have hstart : ∀ g ∈ layoutChars, g.isDigit = false := forall_layoutChars.mpr (by decide)
  refine .of_cons (fun g hg b => if_neg (by rw [hstart g hg]; decide)) fun c => ?_
  exact (takeWhile_endsAtLayout (fun d => d.isDigit || d == '_') (forall_layoutChars.mpr (by decide))).comp
    fun n => if c.isDigit then 1 + n else 0

theorem systemWord_endsAtLayout : EndsAtLayout systemWord :=
  .of_head '$' (by decide) rfl (fun c cs hc => by simp [systemWord, hc])
    ((takeWhile_endsAtLayout isWordPart (forall_layoutChars.mpr (by decide))).comp signed)

theorem directive_endsAtLayout : EndsAtLayout directive :=
  .of_head '\x60' (by decide) rfl (fun c cs hc => by simp [directive, hc]) (word_endsAtLayout.comp signed)

theorem baseAndDigits_endsAtLayout : EndsAtLayout baseAndDigits := by
  have hletter : ∀ g ∈ layoutChars, Base.ofLetter? g = none := forall_layoutChars.mpr (by decide)
  have hadmits (base : Base) : ∀ g ∈ layoutChars, base.admits g = false :=
    forall_layoutChars.mpr (by cases base <;> decide)
  refine .of_head '\x27' (by decide) rfl (fun c cs hc => by simp [baseAndDigits, hc]) ?_
  refine .of_cons (fun g hg b => ?_) fun letter => ?_
  · rw [baseAndDigits_cons, hletter g hg]
    rfl
  · simp only [baseAndDigits_cons]
    cases Base.ofLetter? letter with
    | none => exact .zero_of fun _ => rfl
    | some base =>
        exact (takeWhile_endsAtLayout base.admits (hadmits base)).comp fun n => if n = 0 then 0 else n + 2

theorem based_endsAtLayout : EndsAtLayout based := by
  intro a g b hg
  have hwidth := takeWhile_endsAtLayout Char.isDigit (forall_layoutChars.mpr (by decide)) a g b hg
  have hle := (takeWhile_local Char.isDigit).le_length a
  dsimp only at hwidth hle
  rw [based_eq, based_eq]
  dsimp only
  rw [hwidth, List.drop_append_of_le_length hle, baseAndDigits_endsAtLayout _ g b hg]

theorem fill_endsAtLayout : EndsAtLayout fill := by
  refine .of_head '\x27' (by decide) rfl (fun c cs hc => by simp [fill, hc]) ?_
  refine .of_cons (fun g hg b => ?_) fun d a g b hg => ?_
  · have h0 := ne_of_isLayout (isLayout_iff.mpr hg) (d := '0') (by decide)
    have h1 := ne_of_isLayout (isLayout_iff.mpr hg) (d := '1') (by decide)
    simp [fill, h0, h1]
  · by_cases hd : d = '0' ∨ d = '1'
    · rcases hd with rfl | rfl <;> rfl
    · simp_all [fill]

theorem exactly_endsAtLayout {text : String} (htext : ∀ g ∈ layoutChars, g ∉ text.toList) :
    EndsAtLayout (exactly text) := by
  intro a g b hg
  have hbegins : text.toList <+: a ++ g :: b ↔ text.toList <+: a := by
    refine ⟨fun h => ?_, fun h => h.trans (List.prefix_append a _)⟩
    rcases List.prefix_or_prefix_of_prefix h (List.prefix_append a _) with hshort | ⟨r, hr⟩
    · exact hshort
    · rw [← hr, List.prefix_append_right_inj] at h
      cases r with
      | nil => rw [← hr, List.append_nil]
      | cons d r =>
          obtain ⟨rfl, -⟩ := List.cons_prefix_cons.mp h
          exact absurd (hr ▸ List.mem_append_right a List.mem_cons_self) (htext d (isLayout_iff.mp hg))
  rw [exactly, exactly]
  simp only [List.isPrefixOf_iff_prefix, hbegins]

end Lexeme

namespace LexicalClass

open Lexeme

/-- The classes by the starts of their lexemes: those of comments and of strings have starts of their own, and
the lexemes of all others end at layout. -/
inductive Family : LexicalClass → Prop
  | docLine : Family ⟨.comment .docLine, docLineComment⟩
  | line : Family ⟨.comment .line, lineComment⟩
  | block (doc : Bool) : Family ⟨.comment (if doc then .docBlock else .block), blockComment doc⟩
  | string : Family ⟨.string, Lexeme.string⟩
  | plain {cls : LexicalClass} (slash : ∀ cs, cls.reach ('/' :: cs) = 0)
      (quote : ∀ cs, cls.reach ('"' :: cs) = 0) (layout : EndsAtLayout cls.reach) : Family cls

theorem family_of_mem_all {cls : LexicalClass} (h : cls ∈ all) : Family cls := by
  rw [all, List.mem_append] at h
  rcases h with h | h
  · simp only [List.mem_cons, List.not_mem_nil, or_false] at h
    rcases h with rfl | rfl | rfl | rfl | rfl | rfl | rfl | rfl | rfl | rfl | rfl
    · exact .docLine
    · exact .line
    · exact .block true
    · exact .block false
    · exact .plain (fun _ => rfl) (fun _ => rfl) word_endsAtLayout
    · exact .plain (fun _ => rfl) (fun _ => rfl) systemWord_endsAtLayout
    · exact .plain (fun _ => rfl) (fun _ => rfl) directive_endsAtLayout
    · exact .plain (fun _ => rfl) (fun _ => rfl) number_endsAtLayout
    · exact .plain (fun _ => rfl) (fun _ => rfl) based_endsAtLayout
    · exact .plain (fun _ => rfl) (fun _ => rfl) fill_endsAtLayout
    · exact .string
  · obtain ⟨mark, -, rfl⟩ := List.mem_map.mp h
    refine .plain (fun _ => ?_) (fun _ => ?_) (exactly_endsAtLayout ?_)
    · cases mark <;> rfl
    · cases mark <;> rfl
    · exact forall_layoutChars.mpr (by cases mark <;> decide)

section Furthest

variable {cs cs' : List Char} {classes : List LexicalClass}

theorem furthest_congr (h : ∀ cls ∈ classes, cls.reach cs' = cls.reach cs) :
    furthest cs' classes = furthest cs classes := by
  induction classes with
  | nil => rfl
  | cons cls rest ih =>
      rw [furthest, furthest, ih fun other hother => h other (List.mem_cons_of_mem cls hother),
        h cls List.mem_cons_self]

theorem furthest_snd_eq {cls : LexicalClass} (hmem : cls ∈ classes)
    (hmax : ∀ other ∈ classes, other.reach cs ≤ cls.reach cs) : (furthest cs classes).2 = cls.reach cs := by
  refine Nat.le_antisymm ?_ (reach_le_furthest hmem)
  by_cases hzero : (furthest cs classes).2 = 0
  · rw [hzero]
    exact Nat.zero_le _
  · obtain ⟨other, hother, -, hreach⟩ := exists_of_furthest hzero
    exact hreach ▸ hmax other hother

theorem furthest_eq_zero (h : ∀ cls ∈ classes, cls.reach cs = 0) : (furthest cs classes).2 = 0 := by
  by_contra hne
  obtain ⟨cls, hcls, -, hreach⟩ := exists_of_furthest hne
  exact hne (hreach.symm.trans (h cls hcls))

/-- A class that reaches further than all others. -/
theorem furthest_eq_of_lt {cls : LexicalClass} (hmem : cls ∈ classes) (hpos : cls.reach cs ≠ 0)
    (hmax : ∀ other ∈ classes, other = cls ∨ other.reach cs < cls.reach cs) :
    furthest cs classes = (cls.kind, cls.reach cs) := by
  have hreach := furthest_snd_eq hmem fun other hother => by
    rcases hmax other hother with rfl | hlt
    · exact Nat.le_refl _
    · exact Nat.le_of_lt hlt
  obtain ⟨other, hother, hkind, heq⟩ := exists_of_furthest (hreach ▸ hpos)
  rcases hmax other hother with rfl | hlt
  · exact Prod.ext hkind.symm hreach
  · omega

end Furthest

end LexicalClass

namespace Lexeme

open LexicalClass

theorem first_of_furthest {cs : List Char} {kind : TokenKind} {n : Nat} (h : furthest cs all = (kind, n))
    (hn : n ≠ 0) : first cs = (kind, n) := by
  rw [first_eq, h]
  exact if_neg hn

theorem first_of_lt {cs : List Char} {cls : LexicalClass} (hmem : cls ∈ all) (hpos : cls.reach cs ≠ 0)
    (hmax : ∀ other ∈ all, other = cls ∨ other.reach cs < cls.reach cs) :
    first cs = (cls.kind, cls.reach cs) :=
  first_of_furthest (furthest_eq_of_lt hmem hpos hmax) hpos

theorem first_of_zero {cs : List Char} (h : ∀ cls ∈ all, cls.reach cs = 0) :
    first cs = (.other, stray cs) := by
  rw [first_eq]
  exact if_pos (furthest_eq_zero h)

/-- Whether the text after two slashes makes a line comment documentation: it goes on with a third slash and
not with a fourth. -/
def opensDocLine : List Char → Bool
  | '/' :: cs => cs.head? != some '/'
  | _ => false

/-- Whether a text starts with neither a comment nor a string. -/
def startsPlain : List Char → Bool
  | '"' :: _ | '/' :: '/' :: _ | '/' :: '*' :: _ => false
  | _ => true

theorem start_cases (cs : List Char) : (∃ ds, cs = '/' :: '/' :: ds) ∨ (∃ ds, cs = '/' :: '*' :: ds) ∨
    (∃ ds, cs = '"' :: ds) ∨ startsPlain cs = true := by
  fun_cases startsPlain cs <;> simp

theorem lineTail_slash (cs : List Char) : lineTail ('/' :: cs) = 1 + lineTail cs := by
  rw [lineTail.eq_2 _ _ (by simp), if_neg (by decide)]

theorem docLineComment_of_opensDocLine {cs : List Char} (h : opensDocLine cs = true) :
    docLineComment ('/' :: '/' :: cs) = 2 + lineTail cs := by
  fun_cases opensDocLine cs with
  | case1 cs =>
      rw [docLineComment_cons, if_neg (by simpa [opensDocLine] using h), lineTail_slash]
      omega
  | case2 hslash => simp [opensDocLine] at h

theorem docLineComment_lt_of_not_opensDocLine {cs : List Char} (h : opensDocLine cs = false) :
    docLineComment ('/' :: '/' :: cs) < 2 + lineTail cs := by
  match cs with
  | [] => decide
  | c :: cs =>
      by_cases hc : c = '/'
      · subst hc
        obtain ⟨ds, rfl⟩ := List.head?_eq_some_iff.mp (by simpa [opensDocLine] using h)
        rw [docLineComment, lineTail_slash, lineTail_slash]
        omega
      · have hzero : docLineComment ('/' :: '/' :: c :: cs) = 0 := by simp [docLineComment, hc]
        omega

theorem first_slashes (cs : List Char) :
    first ('/' :: '/' :: cs) = (.comment (if opensDocLine cs then .docLine else .line), 2 + lineTail cs) := by
  have hpos : 0 < 2 + lineTail cs := by omega
  cases hdoc : opensDocLine cs with
  | true =>
      have hreach := docLineComment_of_opensDocLine hdoc
      have hmax := @furthest_snd_eq ('/' :: '/' :: cs) all ⟨.comment .docLine, docLineComment⟩
        List.mem_cons_self fun other hother => by
          cases family_of_mem_all hother with
          | docLine => exact Nat.le_refl _
          | line => exact hreach.ge
          | block => exact Nat.zero_le _
          | string => exact Nat.zero_le _
          | plain slash => exact slash _ ▸ Nat.zero_le _
      exact first_of_furthest (Prod.ext (furthest_kind_of_docLine hmax.le) (hmax.trans hreach)) hpos.ne'
  | false =>
      refine first_of_lt (List.mem_cons_of_mem _ List.mem_cons_self) hpos.ne' fun other hother => ?_
      cases family_of_mem_all hother with
      | docLine => exact .inr (docLineComment_lt_of_not_opensDocLine hdoc)
      | line => exact .inl rfl
      | block => exact .inr hpos
      | string => exact .inr hpos
      | plain slash => exact .inr (slash _ ▸ hpos)

theorem first_opening_closed {cs : List Char} {n : Nat} (h : beforeClose? cs = some n) :
    first ('/' :: '*' :: cs) = (.comment (if opensDoc cs then .docBlock else .block), n + 4) := by
  have hreach (doc : Bool) : blockComment doc ('/' :: '*' :: cs) = if opensDoc cs = doc then n + 4 else 0 := by
    rw [blockComment, h]
  have hsame : blockComment (opensDoc cs) ('/' :: '*' :: cs) = n + 4 := (hreach _).trans (if_pos rfl)
  have hpos : 0 < blockComment (opensDoc cs) ('/' :: '*' :: cs) := hsame ▸ Nat.succ_pos _
  rw [← hsame]
  refine @first_of_lt _ ⟨_, blockComment (opensDoc cs)⟩ ?_ hpos.ne' fun other hother => ?_
  · cases opensDoc cs <;> simp [all]
  cases family_of_mem_all hother with
  | docLine => exact .inr hpos
  | line => exact .inr hpos
  | string => exact .inr hpos
  | plain slash => exact .inr (slash _ ▸ hpos)
  | block doc =>
      by_cases hdoc : opensDoc cs = doc
      · exact .inl (by rw [hdoc])
      · exact .inr (((hreach doc).trans (if_neg hdoc)).trans_lt hpos)

theorem first_opening_unclosed {cs : List Char} (h : beforeClose? cs = none) :
    first ('/' :: '*' :: cs) = (.other, 2) := by
  refine first_of_zero fun cls hcls => ?_
  cases family_of_mem_all hcls with
  | docLine => rfl
  | line => rfl
  | block doc =>
      dsimp only
      rw [blockComment, h]
  | string => rfl
  | plain slash => exact slash _

theorem first_quote (cs : List Char) :
    first ('"' :: cs) = if (cs.drop (stringBody cs)).head? = some '"' then (.string, stringBody cs + 2)
      else (.other, 1 + stringBody cs) := by
  split
  · next hquote =>
      have hreach : string ('"' :: cs) = stringBody cs + 2 := if_pos hquote
      have hpos : 0 < string ('"' :: cs) := hreach ▸ Nat.succ_pos _
      rw [← hreach]
      refine @first_of_lt _ ⟨_, string⟩ (by simp [all]) hpos.ne' fun other hother => ?_
      cases family_of_mem_all hother with
      | docLine => exact .inr hpos
      | line => exact .inr hpos
      | block => exact .inr hpos
      | string => exact .inl rfl
      | plain slash quote => exact .inr (quote _ ▸ hpos)
  · next hquote =>
      refine first_of_zero fun cls hcls => ?_
      cases family_of_mem_all hcls with
      | docLine => rfl
      | line => rfl
      | block => rfl
      | string => exact if_neg hquote
      | plain slash quote => exact quote _

theorem zero_of_startsPlain {cs : List Char} (h : startsPlain cs = true) :
    docLineComment cs = 0 ∧ lineComment cs = 0 ∧ (∀ doc, blockComment doc cs = 0) ∧ string cs = 0 ∧
      stray cs = 1 := by
  match cs with
  | [] => simp [docLineComment, lineComment, blockComment, string, stray]
  | [c] =>
      have hc : c ≠ '"' := by rintro rfl; cases h
      simp [docLineComment, lineComment, blockComment, string, stray, hc]
  | c :: d :: ds =>
      have hc : c ≠ '"' := by rintro rfl; cases h
      have hslash : c = '/' → d ≠ '/' ∧ d ≠ '*' := by
        rintro rfl
        constructor <;> (rintro rfl; cases h)
      by_cases hc' : c = '/'
      · obtain ⟨hd, hd'⟩ := hslash hc'
        simp [docLineComment, lineComment, blockComment, string, stray, hc', hd, hd']
      · simp [docLineComment, lineComment, blockComment, string, stray, hc, hc']

theorem startsPlain_append {a b : List Char} {g : Char} (ha : a ≠ []) (hg : isLayout g) :
    startsPlain (a ++ g :: b) = startsPlain a := by
  match a with
  | [c] =>
      have hslash := ne_of_isLayout hg (d := '/') (by decide)
      have hstar := ne_of_isLayout hg (d := '*') (by decide)
      by_cases hc : c = '"'
      · rw [hc]
        rfl
      · simp [startsPlain, hc, hslash, hstar]
  | c :: d :: ds =>
      by_cases hc : c = '"'
      · rw [hc]
        rfl
      · by_cases hd : d = '/' ∨ d = '*'
        · by_cases hc' : c = '/'
          · rcases hd with rfl | rfl <;> simp [startsPlain, hc']
          · simp [startsPlain, hc, hc']
        · simp_all [startsPlain]

theorem first_plain {a b : List Char} {g : Char} (ha : a ≠ []) (hplain : startsPlain a = true) (hg : isLayout g) :
    first (a ++ g :: b) = first a := by
  have hplain' := (startsPlain_append (b := b) ha hg).trans hplain
  obtain ⟨hdoc, hline, hblock, hstring, hstray⟩ := zero_of_startsPlain hplain
  obtain ⟨hdoc', hline', hblock', hstring', hstray'⟩ := zero_of_startsPlain hplain'
  have hbest : furthest (a ++ g :: b) all = furthest a all := furthest_congr fun cls hcls => by
    cases family_of_mem_all hcls with
    | docLine => exact hdoc'.trans hdoc.symm
    | line => exact hline'.trans hline.symm
    | block doc => exact (hblock' doc).trans (hblock doc).symm
    | string => exact hstring'.trans hstring.symm
    | plain slash quote layout => exact layout a g b hg
  rw [first_eq, first_eq, hbest, hstray, hstray']

end Lexeme

end BluespecDocs
