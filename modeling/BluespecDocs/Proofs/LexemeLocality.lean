import BluespecDocs.Lexeme

/-!
The token at the start of a text depends on the characters of that token alone. A lexical class is local if
the reach of its longest lexeme stays the same when characters behind that reach are cut off; all classes
are, and with them the choice of the furthest one and the token where none applies.
-/

namespace BluespecDocs

namespace Lexeme

/-- A reach, counted from `k` characters before the text, that stays within the text and does not depend on
the characters behind it. -/
structure Local (reach : List Char → Nat) (k : Nat := 0) : Prop where
  le_length : ∀ cs, reach cs ≤ cs.length + k
  append : ∀ a b, reach (a ++ b) ≤ a.length + k → reach a = reach (a ++ b)

namespace Local

variable {reach : List Char → Nat} {k : Nat}

theorem of_eq {other : List Char → Nat} (h : Local reach k) (heq : ∀ cs, other cs = reach cs) :
    Local other k := by
  rwa [funext heq]

theorem zero_of {other : List Char → Nat} (heq : ∀ cs, other cs = 0) : Local other k :=
  ⟨fun cs => by rw [heq]; exact Nat.zero_le _, fun a b _ => by rw [heq, heq]⟩

theorem const {n : Nat} (h : n ≤ k) : Local (fun _ => n) k :=
  ⟨fun _ => Nat.le_trans h (Nat.le_add_left k _), fun _ _ _ => rfl⟩

theorem add (h : Local reach) : Local (fun cs => k + reach cs) k where
  le_length cs := by
    have := h.le_length cs
    omega
  append a b hle := by
    rw [h.append a b (by omega)]

/-- A reach that must not be 0, with `k` characters in front of it. -/
theorem required (h : Local reach) : Local (fun cs => if reach cs = 0 then 0 else reach cs + k) k where
  le_length cs := by
    have := h.le_length cs
    split <;> omega
  append a b hle := by
    have hreach : reach a = reach (a ++ b) := by
      apply h.append
      split at hle <;> omega
    rw [hreach]

/-- The first character in turn counts as one before the text. -/
theorem of_cons (hnil : reach [] = 0) (hpos : ∀ cs, reach cs ≤ k → reach cs = 0)
    (hcons : ∀ c, Local (fun cs => reach (c :: cs)) (k + 1)) : Local reach k where
  le_length cs := by
    cases cs with
    | nil => rw [hnil]; exact Nat.zero_le _
    | cons c cs =>
        have := (hcons c).le_length cs
        rw [List.length_cons]
        omega
  append a b hle := by
    cases a with
    | nil => rw [hnil, List.nil_append, hpos b (by simpa using hle)]
    | cons c a =>
        rw [List.length_cons] at hle
        exact (hcons c).append a b (by rw [List.cons_append] at hle; omega)

theorem of_cons_zero (hnil : reach [] = 0) (hcons : ∀ c, Local (fun cs => reach (c :: cs)) 1) :
    Local reach :=
  of_cons hnil (fun _ h => Nat.le_zero.mp h) hcons

theorem cons (h : Local reach k) (c : Char) : Local (fun cs => reach (c :: cs)) (k + 1) where
  le_length cs := by
    have := h.le_length (c :: cs)
    rw [List.length_cons] at this
    omega
  append a b hle := h.append (c :: a) b (by rw [List.cons_append, List.length_cons]; omega)

/-- Only texts that start with one character have a lexeme. -/
theorem of_head (x : Char) (hnil : reach [] = 0) (hpos : ∀ cs, reach cs ≤ k → reach cs = 0)
    (hother : ∀ c cs, c ≠ x → reach (c :: cs) = 0) (hx : Local (fun cs => reach (x :: cs)) (k + 1)) :
    Local reach k := by
  refine of_cons hnil hpos fun c => ?_
  by_cases hc : c = x
  · rwa [hc]
  · exact zero_of fun cs => hother c cs hc

theorem of_head_zero (x : Char) (hnil : reach [] = 0) (hother : ∀ c cs, c ≠ x → reach (c :: cs) = 0)
    (hx : Local (fun cs => reach (x :: cs)) 1) : Local reach :=
  of_head x hnil (fun _ h => Nat.le_zero.mp h) hother hx

end Local

theorem takeWhile_local (test : Char → Bool) : Local fun cs => (cs.takeWhile test).length where
  le_length cs := (List.takeWhile_sublist test).length_le
  append a b hle := by
    induction a with
    | nil => exact (Nat.le_zero.mp hle).symm
    | cons c a ih =>
        rw [List.cons_append, List.takeWhile_cons] at hle ⊢
        rw [List.takeWhile_cons]
        split at hle
        · next hc =>
            rw [List.length_cons, List.length_cons] at hle
            rw [if_pos hc, if_pos hc, List.length_cons, List.length_cons, ih (by omega)]
        · next hc => rw [if_neg hc, if_neg hc]

theorem word_local : Local word := by
  refine Local.of_cons_zero rfl fun c => ?_
  by_cases hc : isWordStart c
  · exact (takeWhile_local isWordPart).add.of_eq fun cs => if_pos hc
  · exact Local.zero_of fun cs => if_neg hc

theorem number_local : Local number := by
  refine Local.of_cons_zero rfl fun c => ?_
  by_cases hc : c.isDigit
  · exact (takeWhile_local _).add.of_eq fun cs => if_pos hc
  · exact Local.zero_of fun cs => if_neg hc

theorem systemWord_local : Local systemWord :=
  Local.of_head_zero '$' rfl (fun c cs hc => by simp [systemWord, hc]) (takeWhile_local isWordPart).required

theorem directive_local : Local directive :=
  Local.of_head_zero '\x60' rfl (fun c cs hc => by simp [directive, hc]) word_local.required

theorem baseAndDigits_cons (letter : Char) (cs : List Char) :
    baseAndDigits ('\x27' :: letter :: cs) = match Base.ofLetter? letter with
      | some base => let n := (cs.takeWhile base.admits).length; if n = 0 then 0 else n + 2
      | none => 0 := by
  rw [baseAndDigits]
  cases Base.ofLetter? letter with
  | none => rfl
  | some base =>
      dsimp only
      generalize (cs.takeWhile base.admits).length = n
      cases n <;> rfl

theorem baseAndDigits_local : Local baseAndDigits := by
  refine Local.of_head_zero '\x27' rfl (fun c cs hc => by simp [baseAndDigits, hc]) ?_
  refine Local.of_cons rfl (fun cs => ?_) fun letter => ?_
  · cases cs with
    | nil => exact fun _ => rfl
    | cons letter cs =>
        rw [baseAndDigits_cons]
        cases Base.ofLetter? letter <;> grind
  · cases hl : Base.ofLetter? letter with
    | none => exact Local.zero_of fun cs => by rw [baseAndDigits_cons, hl]
    | some base =>
        exact (takeWhile_local base.admits).required.of_eq fun cs => by rw [baseAndDigits_cons, hl]

theorem based_eq (cs : List Char) :
    based cs = let width := (cs.takeWhile Char.isDigit).length
      let reach := baseAndDigits (cs.drop width)
      if reach = 0 then 0 else width + reach := by
  rw [based]
  dsimp only
  generalize baseAndDigits (cs.drop (cs.takeWhile Char.isDigit).length) = n
  cases n <;> rfl

theorem based_local : Local based where
  le_length cs := by
    have hwidth := (takeWhile_local Char.isDigit).le_length cs
    have hreach := baseAndDigits_local.le_length (cs.drop (cs.takeWhile Char.isDigit).length)
    rw [List.length_drop] at hreach
    rw [based_eq]
    grind
  append a b hle := by
    have hwidth := (takeWhile_local Char.isDigit).append a b
    rw [based_eq] at hle ⊢
    rw [based_eq]
    dsimp only at hle hwidth ⊢
    by_cases hw : ((a ++ b).takeWhile Char.isDigit).length ≤ a.length
    · rw [List.drop_append_of_le_length hw] at hle ⊢
      have hreach := baseAndDigits_local.append (a.drop ((a ++ b).takeWhile Char.isDigit).length) b
      rw [List.length_drop] at hreach
      rw [hwidth hw, hreach (by grind)]
    · have hall : (a.takeWhile Char.isDigit).length = a.length := by
        rw [List.takeWhile_append] at hw
        split at hw
        · assumption
        · exact absurd ((takeWhile_local Char.isDigit).le_length a) hw
      have hzero : baseAndDigits (a.drop a.length) = 0 := by
        rw [List.drop_length]
        rfl
      rw [hall, hzero]
      split at hle
      · next h => rw [if_pos h]; rfl
      · omega

theorem fill_local : Local fill := by
  refine Local.of_head_zero '\x27' rfl (fun c cs hc => by simp [fill, hc]) ?_
  refine Local.of_cons rfl (fun cs => ?_) fun d => ?_
  · rw [fill.eq_def]
    grind
  · by_cases hd : d = '0' ∨ d = '1'
    · exact (Local.const (Nat.le_refl 2)).of_eq fun cs => by rcases hd with rfl | rfl <;> rfl
    · exact Local.zero_of fun cs => by simp_all [fill]

/-! Strings -/

theorem stringBody_escape (c : Char) (cs : List Char) :
    stringBody ('\\' :: c :: cs) = if c = '\n' then 0 else 2 + stringBody cs := by
  rw [stringBody]

theorem stringBody_plain {c : Char} (hc : c ≠ '\\') (cs : List Char) :
    stringBody (c :: cs) = if c = '"' ∨ c = '\n' then 0 else 1 + stringBody cs := by
  rw [stringBody]
  · simp [hc]
  · simp [hc]

theorem stringBody_le_length (cs : List Char) : stringBody cs ≤ cs.length := by
  fun_induction stringBody cs <;> grind

theorem stringBody_append {a b : List Char} (hle : stringBody (a ++ b) ≤ a.length) :
    stringBody a = stringBody (a ++ b) := by
  fun_induction stringBody a with
  | case1 cs => exact (stringBody_escape '\n' (cs ++ b)).symm
  | case2 c cs hc ih =>
      rw [List.cons_append, List.cons_append, stringBody_escape, if_neg hc] at hle ⊢
      rw [ih (by simp at hle; omega)]
  | case3 c cs hlone hstop =>
      by_cases hc : c = '\\'
      · subst hc
        cases cs with
        | cons d ds => exact absurd rfl (hlone d ds rfl)
        | nil =>
            cases b with
            | nil => rfl
            | cons d b =>
                rw [List.singleton_append, stringBody_escape] at hle ⊢
                split at hle
                · next hd => rw [if_pos hd]
                · rw [List.length_singleton] at hle
                  omega
      · rw [List.cons_append, stringBody_plain hc, if_pos (by grind)]
  | case4 c cs hlone hgo ih =>
      have hc : c ≠ '\\' := by grind
      rw [List.cons_append, stringBody_plain hc, if_neg (by grind)] at hle ⊢
      rw [ih (by simp at hle; omega)]
  | case5 => exact (Nat.le_zero.mp hle).symm

theorem stringBody_local : Local stringBody :=
  ⟨stringBody_le_length, fun _ _ => stringBody_append⟩

/-- A string body that ends at a quote ends there whatever stands behind the quote. -/
theorem stringBody_append_of_quote {a : List Char} (b : List Char)
    (hquote : (a.drop (stringBody a)).head? = some '"') : stringBody (a ++ b) = stringBody a := by
  fun_induction stringBody a with
  | case1 cs => exact stringBody_escape '\n' (cs ++ b)
  | case2 c cs hc ih =>
      rw [Nat.add_comm, List.drop_succ_cons, List.drop_succ_cons] at hquote
      rw [List.cons_append, List.cons_append, stringBody_escape, if_neg hc, ih hquote]
  | case3 c cs hlone hstop =>
      have hc : c = '"' := by simpa using hquote
      subst hc
      rw [List.cons_append, stringBody_plain (by decide), if_pos (.inl rfl)]
  | case4 c cs hlone hgo ih =>
      have hc : c ≠ '\\' := by grind
      rw [Nat.add_comm, List.drop_succ_cons] at hquote
      rw [List.cons_append, stringBody_plain hc, if_neg (by grind), ih hquote]
  | case5 => exact absurd hquote (by simp)

theorem lt_length_of_head_drop {cs : List Char} {n : Nat} {c : Char} (h : (cs.drop n).head? = some c) :
    n < cs.length := by
  rw [List.head?_drop] at h
  exact (List.getElem?_eq_some_iff.mp h).1

theorem head_drop_append {a : List Char} {n : Nat} (b : List Char) (h : n < a.length) :
    ((a ++ b).drop n).head? = (a.drop n).head? := by
  rw [List.head?_drop, List.head?_drop, List.getElem?_append_left h]

theorem string_local : Local string := by
  refine Local.of_head_zero '"' rfl (fun c cs hc => by simp [string, hc]) ⟨fun cs => ?_, fun a b hle => ?_⟩
  · rw [string]
    split
    · next hquote =>
        have := lt_length_of_head_drop hquote
        omega
    · exact Nat.zero_le _
  · rw [string] at hle ⊢
    rw [string]
    by_cases hquote : (a.drop (stringBody a)).head? = some '"'
    · rw [stringBody_append_of_quote b hquote, head_drop_append b (lt_length_of_head_drop hquote)]
    · rw [if_neg hquote]
      split at hle
      -- A quote that closes the string within the reach would close it in the shorter text too.
      · next hclosed =>
          have hbody := stringBody_local.append a b (by omega)
          rw [← hbody, head_drop_append b (by omega)] at hclosed
          exact absurd hclosed hquote
      · next hopen => rw [if_neg hopen]

/-! Comments -/

theorem lineTail_escape (cs : List Char) : lineTail ('\\' :: '\n' :: cs) = 2 + lineTail cs := by
  rw [lineTail]

theorem lineTail_newline (cs : List Char) : lineTail ('\n' :: cs) = 0 := by
  simp [lineTail]

theorem lineTail_le_length (cs : List Char) : lineTail cs ≤ cs.length := by
  fun_induction lineTail cs <;> grind

theorem lineTail_append {a b : List Char} (hle : lineTail (a ++ b) ≤ a.length) :
    lineTail a = lineTail (a ++ b) := by
  fun_induction lineTail a with
  | case1 cs ih =>
      rw [List.cons_append, List.cons_append, lineTail_escape] at hle ⊢
      rw [ih (by simp at hle; omega)]
  | case2 cs hlone => exact (lineTail_newline (cs ++ b)).symm
  | case3 c cs hlone hc ih =>
      have hplain : ∀ ds, c = '\\' → cs ++ b = '\n' :: ds → False := by
        rintro ds rfl hcut
        cases cs with
        | cons d cs =>
            obtain ⟨rfl, -⟩ := List.cons.inj hcut
            exact hlone cs rfl rfl
        | nil =>
            rw [List.nil_append] at hcut
            subst hcut
            rw [List.singleton_append, lineTail_escape, List.length_singleton] at hle
            omega
      rw [List.cons_append, lineTail.eq_2 _ _ hplain, if_neg hc] at hle ⊢
      rw [ih (by simp at hle; omega)]
  | case4 => exact (Nat.le_zero.mp hle).symm

theorem lineTail_local : Local lineTail :=
  ⟨lineTail_le_length, fun _ _ => lineTail_append⟩

theorem lineComment_local : Local lineComment := by
  refine Local.of_head_zero '/' rfl (fun c cs hc => by simp [lineComment, hc]) ?_
  refine Local.of_head '/' rfl (fun cs => ?_) (fun c cs hc => by simp [lineComment, hc]) ?_
  · rw [lineComment.eq_def]
    grind
  · exact lineTail_local.add.of_eq fun cs => by rw [lineComment]

/-- What follows three slashes: the rest of the line, unless a fourth slash stands there. -/
theorem docLineTail_local : Local fun cs => if cs.head? = some '/' then 0 else lineTail cs := by
  refine Local.of_cons_zero (by simp [lineTail]) fun c => ?_
  by_cases hc : c = '/'
  · exact Local.zero_of fun cs => if_pos (by rw [hc]; rfl)
  · exact (lineTail_local.cons c).of_eq fun cs => if_neg (by simpa using hc)

theorem docLineComment_cons (cs : List Char) :
    docLineComment ('/' :: '/' :: '/' :: cs) = 3 + if cs.head? = some '/' then 0 else lineTail cs := by
  cases cs with
  | nil => simp [docLineComment]
  | cons c cs =>
      by_cases hc : c = '/'
      · rw [hc, docLineComment, List.head?_cons, if_pos rfl]
      · simp [docLineComment, hc]

theorem docLineComment_local : Local docLineComment := by
  refine Local.of_head_zero '/' rfl (fun c cs hc => by simp [docLineComment, hc]) ?_
  refine Local.of_head '/' rfl (fun cs => ?_) (fun c cs hc => by simp [docLineComment, hc]) ?_
  · rw [docLineComment.eq_def]
    grind
  refine Local.of_head '/' rfl (fun cs => ?_) (fun c cs hc => by simp [docLineComment, hc]) ?_
  · rw [docLineComment.eq_def]
    grind
  · exact docLineTail_local.add.of_eq docLineComment_cons

theorem beforeClose_append {a : List Char} {n : Nat} (b : List Char) (h : beforeClose? a = some n) :
    beforeClose? (a ++ b) = some n ∧ n + 2 ≤ a.length := by
  fun_induction beforeClose? a generalizing n with
  | case1 cs =>
      cases h
      exact ⟨by simp [beforeClose?], by simp⟩
  | case2 c cs hopen ih =>
      obtain ⟨m, hm, rfl⟩ := Option.map_eq_some_iff.mp h
      obtain ⟨hm, hle⟩ := ih hm
      have hopen' : ∀ ds, c = '*' → cs ++ b = '/' :: ds → False := by
        rintro ds rfl hclose
        cases cs with
        | nil => exact absurd hle (by simp)
        | cons d cs =>
            obtain ⟨rfl, -⟩ := List.cons.inj hclose
            exact hopen cs rfl rfl
      refine ⟨?_, by rw [List.length_cons]; omega⟩
      rw [List.cons_append, beforeClose?.eq_2 _ _ hopen', hm]
      rfl
  | case3 => cases h

theorem beforeClose_of_append {a b : List Char} {n : Nat} (h : beforeClose? (a ++ b) = some n)
    (hle : n + 2 ≤ a.length) : beforeClose? a = some n := by
  fun_induction beforeClose? a generalizing n with
  | case1 cs =>
      rw [List.cons_append, List.cons_append, beforeClose?] at h
      exact h
  | case2 c cs hopen ih =>
      have hopen' : ∀ ds, c = '*' → cs ++ b = '/' :: ds → False := by
        rintro ds rfl hclose
        cases cs with
        | nil =>
            rw [List.singleton_append] at h
            rw [List.length_singleton] at hle
            omega
        | cons d cs =>
            obtain ⟨rfl, -⟩ := List.cons.inj hclose
            exact hopen cs rfl rfl
      rw [List.cons_append, beforeClose?.eq_2 _ _ hopen'] at h
      obtain ⟨m, hm, rfl⟩ := Option.map_eq_some_iff.mp h
      rw [ih hm (by rw [List.length_cons] at hle; omega)]
      rfl
  | case3 => exact absurd hle (by simp)

theorem opensDoc_cons_cons (c d : Char) (cs : List Char) :
    opensDoc (c :: d :: cs) = (c == '*' && d != '/') := by
  by_cases hc : c = '*'
  · by_cases hd : d = '/' <;> simp [opensDoc, hc, hd]
  · simp [opensDoc, hc]

theorem opensDoc_append {a : List Char} (b : List Char) (h : 2 ≤ a.length) :
    opensDoc (a ++ b) = opensDoc a := by
  match a, h with
  | c :: d :: cs, _ => rw [List.cons_append, List.cons_append, opensDoc_cons_cons, opensDoc_cons_cons]

theorem blockComment_local (doc : Bool) : Local (blockComment doc) := by
  refine Local.of_head_zero '/' rfl (fun c cs hc => by simp [blockComment, hc]) ?_
  refine Local.of_head '*' rfl (fun cs => ?_) (fun c cs hc => by simp [blockComment, hc]) ?_
  · rw [blockComment.eq_def]
    grind
  refine ⟨fun cs => ?_, fun a b hle => ?_⟩
  · rw [blockComment]
    cases hclose : beforeClose? cs with
    | none => exact Nat.zero_le _
    | some n =>
        have := (beforeClose_append [] hclose).2
        dsimp only
        split <;> omega
  · rw [blockComment] at hle ⊢
    rw [blockComment]
    cases hclose : beforeClose? a with
    | some n =>
        obtain ⟨hclose', hn⟩ := beforeClose_append b hclose
        rw [hclose', opensDoc_append b (by omega)]
    | none =>
        cases hclose' : beforeClose? (a ++ b) with
        | none => rfl
        | some n =>
            rw [hclose'] at hle
            dsimp only at hle ⊢
            split at hle
            · rw [beforeClose_of_append hclose' (by omega)] at hclose
              cases hclose
            · next hstyle => rw [if_neg hstyle]

theorem exactly_local (text : String) : Local (exactly text) where
  le_length cs := by
    rw [exactly]
    split
    · next h => exact (List.isPrefixOf_iff_prefix.mp h).length_le
    · exact Nat.zero_le _
  append a b hle := by
    rw [exactly] at hle ⊢
    rw [exactly]
    simp only [List.isPrefixOf_iff_prefix] at hle ⊢
    by_cases ha : text.toList <+: a
    · rw [if_pos ha, if_pos (ha.trans (List.prefix_append a b))]
    · split at hle
      · next h => exact absurd (List.prefix_of_prefix_length_le h (List.prefix_append a b) hle) ha
      · next h => rw [if_neg ha, if_neg h]

end Lexeme

namespace LexicalClass

theorem local_of_mem_all {cls : LexicalClass} (h : cls ∈ all) : Lexeme.Local cls.reach := by
  rw [all, List.mem_append] at h
  rcases h with h | h
  · simp only [List.mem_cons, List.not_mem_nil, or_false] at h
    rcases h with rfl | rfl | rfl | rfl | rfl | rfl | rfl | rfl | rfl | rfl | rfl
    · exact Lexeme.docLineComment_local
    · exact Lexeme.lineComment_local
    · exact Lexeme.blockComment_local true
    · exact Lexeme.blockComment_local false
    · exact Lexeme.word_local
    · exact Lexeme.systemWord_local
    · exact Lexeme.directive_local
    · exact Lexeme.number_local
    · exact Lexeme.based_local
    · exact Lexeme.fill_local
    · exact Lexeme.string_local
  · obtain ⟨mark, -, rfl⟩ := List.mem_map.mp h
    exact Lexeme.exactly_local mark.text

variable {classes : List LexicalClass}

theorem furthest_le_length (h : ∀ cls ∈ classes, Lexeme.Local cls.reach) (cs : List Char) :
    (furthest cs classes).2 ≤ cs.length := by
  induction classes with
  | nil => exact Nat.zero_le _
  | cons cls rest ih =>
      rw [furthest]
      split
      · exact (h cls List.mem_cons_self).le_length cs
      · exact ih fun other hother => h other (List.mem_cons_of_mem cls hother)

theorem furthest_append (h : ∀ cls ∈ classes, Lexeme.Local cls.reach) {a b : List Char}
    (hle : (furthest (a ++ b) classes).2 ≤ a.length) : furthest a classes = furthest (a ++ b) classes := by
  induction classes with
  | nil => rfl
  | cons cls rest ih =>
      rw [furthest] at hle ⊢
      rw [furthest]
      have hrest := ih fun other hother => h other (List.mem_cons_of_mem cls hother)
      have hcls := (h cls List.mem_cons_self).append a b
      split at hle
      · next hbest => rw [hrest (Nat.le_trans hbest hle), hcls hle, if_pos hbest]
      · next hbest => rw [hrest hle, hcls (by omega)]

end LexicalClass

namespace Lexeme

theorem stray_pos (cs : List Char) : 1 ≤ stray cs := by
  rw [stray.eq_def]
  split <;> omega

theorem stray_cons_local (c : Char) : Local (fun cs => stray (c :: cs)) 1 := by
  by_cases hquote : c = '"'
  · exact stringBody_local.add.of_eq fun cs => by rw [hquote, stray]
  by_cases hslash : c = '/'
  · subst hslash
    refine ⟨fun cs => ?_, fun a b hle => ?_⟩
    · rw [stray.eq_def]
      grind
    · rw [stray.eq_def] at hle ⊢
      rw [stray.eq_def]
      cases a <;> grind
  · exact (Local.const (Nat.le_refl 1)).of_eq fun cs => by simp [stray, hquote, hslash]

theorem first_eq (cs : List Char) :
    first cs = let best := LexicalClass.furthest cs LexicalClass.all
      if best.2 = 0 then (.other, stray cs) else best := by
  unfold first
  generalize LexicalClass.furthest cs LexicalClass.all = best
  rcases best with ⟨kind, _ | n⟩ <;> rfl

theorem first_pos (cs : List Char) : 1 ≤ (first cs).2 := by
  rw [first_eq]
  dsimp only
  split
  · exact stray_pos cs
  · next h => exact Nat.pos_of_ne_zero h

theorem first_cons_le_length (c : Char) (cs : List Char) : (first (c :: cs)).2 ≤ cs.length + 1 := by
  rw [first_eq]
  dsimp only
  split
  · exact (stray_cons_local c).le_length cs
  · exact LexicalClass.furthest_le_length (fun _ => LexicalClass.local_of_mem_all) (c :: cs)

/-- The first token of a text is the first token of every beginning that holds it. -/
theorem first_cons_append {c : Char} {a b : List Char} (hle : (first (c :: (a ++ b))).2 ≤ a.length + 1) :
    first (c :: a) = first (c :: (a ++ b)) := by
  have hbest := LexicalClass.furthest_append (a := c :: a) (b := b) fun _ => LexicalClass.local_of_mem_all
  rw [List.cons_append, List.length_cons] at hbest
  rw [first_eq] at hle ⊢
  rw [first_eq]
  dsimp only at hle ⊢
  split at hle
  · next hzero =>
      have hstray : stray (c :: a) = stray (c :: (a ++ b)) := (stray_cons_local c).append a b hle
      rw [hbest (by omega), hstray]
  · next hne => rw [hbest hle, if_neg hne, if_neg hne]

end Lexeme

end BluespecDocs
