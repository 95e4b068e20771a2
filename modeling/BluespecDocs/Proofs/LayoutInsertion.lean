import BluespecDocs.Proofs.ScanRestart
import BluespecDocs.Proofs.TokenStarts

/-!
Layout put into a text. Where no token reaches up to a place, more layout at that place changes no token but
moves those behind it, since a token that ends before layout does not depend on what follows the layout, and
layout neither closes nor opens a block comment. So the document of the text stays the same up to places and
lines.
-/

namespace BluespecDocs

open Text Token

namespace Lexeme

theorem lineTail_append_of_lt {a : List Char} (h : lineTail a < a.length) (b : List Char) :
    lineTail (a ++ b) = lineTail a := by
  fun_induction lineTail a with
  | case1 cs ih =>
      rw [List.cons_append, List.cons_append, lineTail_escape, ih (by simp at h; omega)]
  | case2 cs hlone => exact lineTail_newline (cs ++ b)
  | case3 c cs hlone hc ih =>
      have hlt : lineTail cs < cs.length := by
        rw [List.length_cons] at h
        omega
      obtain ⟨d, ds, rfl⟩ := List.exists_cons_of_length_pos (Nat.zero_lt_of_lt hlt)
      have hplain : ∀ es, c = '\\' → d :: ds ++ b = '\n' :: es → False := by
        rintro es rfl hcut
        obtain ⟨rfl, -⟩ := List.cons.inj hcut
        exact hlone ds rfl rfl
      rw [List.cons_append, lineTail.eq_2 _ _ hplain, if_neg hc, ih hlt]
  | case4 => cases h

theorem stringBody_append_of_lt {a : List Char} (h : stringBody a < a.length) (hlast : a.getLast? ≠ some '\\')
    (b : List Char) : stringBody (a ++ b) = stringBody a := by
  fun_induction stringBody a with
  | case1 cs => exact stringBody_escape '\n' (cs ++ b)
  | case2 c cs hc ih =>
      have hlt : stringBody cs < cs.length := by
        simp only [List.length_cons] at h
        omega
      have hne := List.ne_nil_of_length_pos (Nat.zero_lt_of_lt hlt)
      rw [List.getLast?_cons_cons, List.getLast?_cons_of_ne_nil hne] at hlast
      rw [List.cons_append, List.cons_append, stringBody_escape, if_neg hc, ih hlt hlast]
  | case3 c cs hlone hstop =>
      have hc : c ≠ '\\' := by
        rintro rfl
        cases cs with
        | nil => exact hlast rfl
        | cons d ds => exact hlone d ds rfl rfl
      rw [List.cons_append, stringBody_plain hc, if_pos (by grind)]
  | case4 c cs hlone hgo ih =>
      have hc : c ≠ '\\' := by grind
      have hlt : stringBody cs < cs.length := by
        rw [List.length_cons] at h
        omega
      have hne := List.ne_nil_of_length_pos (Nat.zero_lt_of_lt hlt)
      rw [List.getLast?_cons_of_ne_nil hne] at hlast
      rw [List.cons_append, stringBody_plain hc, if_neg (by grind), ih hlt hlast]
  | case5 => cases h

section Behind

variable {g : Char} {a : List Char}

/-- A reach that ends before a character, and would do so with that character at the end of the text, does not
depend on what follows the character. -/
theorem Local.behind {reach : List Char → Nat} (h : Local reach) {b : List Char} (b' : List Char)
    (hstays : reach (a ++ [g]) < (a ++ [g]).length → ∀ z, reach (a ++ [g] ++ z) = reach (a ++ [g]))
    (hle : reach (a ++ g :: b) ≤ a.length) : reach (a ++ g :: b') = reach (a ++ g :: b) := by
  have hlength : (a ++ [g]).length = a.length + 1 := List.length_append
  rw [List.append_cons a g b] at hle ⊢
  rw [List.append_cons a g b']
  have hcut := h.append (a ++ [g]) b (by omega)
  rw [hstays (by omega), hcut]

theorem head_drop_behind {n : Nat} (h : n ≤ a.length) (b b' : List Char) :
    ((a ++ g :: b').drop n).head? = ((a ++ g :: b).drop n).head? := by
  have hlt : n < (a ++ [g]).length := by
    rw [List.length_append, List.length_singleton]
    omega
  rw [List.append_cons a g b, List.append_cons a g b', head_drop_append b hlt, head_drop_append b' hlt]

variable (hg : isLayout g) {b b' : List Char}

include hg

/-- A closing mark does not reach over layout. -/
theorem beforeClose_layout :
    beforeClose? (a ++ g :: b) = none ↔ beforeClose? a = none ∧ beforeClose? b = none := by
  have hslash := ne_of_isLayout hg (d := '/') (by decide)
  have hstar := ne_of_isLayout hg (d := '*') (by decide)
  fun_induction beforeClose? a with
  | case1 cs => simp [beforeClose?]
  | case2 c cs hopen ih =>
      have hopen' : ∀ ds, c = '*' → cs ++ g :: b = '/' :: ds → False := by
        rintro ds rfl hclose
        cases cs with
        | nil => exact hslash (List.cons.inj hclose).1
        | cons d cs =>
            obtain ⟨rfl, -⟩ := List.cons.inj hclose
            exact hopen cs rfl rfl
      rw [List.cons_append, beforeClose?.eq_2 _ _ hopen', Option.map_eq_none_iff, Option.map_eq_none_iff]
      exact ih
  | case3 =>
      rw [List.nil_append, beforeClose?.eq_2 _ _ fun _ h => absurd h hstar, Option.map_eq_none_iff]
      exact (and_iff_right rfl).symm

omit hg in
theorem beforeClose_layouts {w : List Char} (hw : ∀ c ∈ w, isLayout c) :
    beforeClose? (w ++ b) = none ↔ beforeClose? b = none := by
  induction w with
  | nil => rfl
  | cons c w ih =>
      have htail := ih fun d hd => hw d (List.mem_cons_of_mem c hd)
      exact (beforeClose_layout (a := []) (hw c List.mem_cons_self)).trans ((and_iff_right rfl).trans htail)

theorem opensDocLine_layout : opensDocLine (a ++ g :: b) = opensDocLine a := by
  have hslash := ne_of_isLayout hg (d := '/') (by decide)
  cases a with
  | nil => simp [opensDocLine, hslash]
  | cons c a =>
      by_cases hc : c = '/'
      · cases a <;> simp [opensDocLine, hc, hslash, bne]
      · simp [opensDocLine, hc]

/-- A token that ends before layout stays the same whatever follows the layout, except that a closing mark of
a block comment must follow it or not as before. -/
theorem first_behind_layout (ha : a ≠ []) (hle : (first (a ++ g :: b)).2 ≤ a.length)
    (hclose : beforeClose? b = none ↔ beforeClose? b' = none) : first (a ++ g :: b') = first (a ++ g :: b) := by
  rcases start_cases a with ⟨a, rfl⟩ | ⟨a, rfl⟩ | ⟨a, rfl⟩ | hplain
  · simp only [List.cons_append, first_slashes, List.length_cons] at hle ⊢
    have htail := lineTail_local.behind b' lineTail_append_of_lt (by omega : lineTail (a ++ g :: b) ≤ a.length)
    rw [opensDocLine_layout hg, opensDocLine_layout hg, htail]
  · simp only [List.cons_append, List.length_cons] at hle ⊢
    cases hb : beforeClose? (a ++ g :: b) with
    | none =>
        have hb' := (beforeClose_layout hg).mpr (((beforeClose_layout hg).mp hb).imp_right hclose.mp)
        rw [first_opening_unclosed hb, first_opening_unclosed hb']
    | some n =>
        rw [first_opening_closed hb] at hle
        have hn := beforeClose_of_append hb (by omega)
        obtain ⟨hb', -⟩ := beforeClose_append (g :: b') hn
        rw [first_opening_closed hb, first_opening_closed hb', opensDoc_append _ (by omega),
          opensDoc_append _ (by omega)]
  · have hlast : (a ++ [g]).getLast? ≠ some '\\' := by
      rw [List.getLast?_concat, Ne, Option.some.injEq]
      exact ne_of_isLayout hg (by decide)
    simp only [List.cons_append, first_quote, List.length_cons] at hle ⊢
    have hle : stringBody (a ++ g :: b) ≤ a.length := by
      split at hle <;> dsimp only at hle <;> omega
    have hbody := stringBody_local.behind b' (fun hlt => stringBody_append_of_lt hlt hlast) hle
    rw [hbody, head_drop_behind hle b b']
  · rw [first_plain ha hplain hg, first_plain ha hplain hg]

end Behind

end Lexeme

namespace Text

/-- Where an offset lies after some bytes have been put in at a place. -/
def pushed (place bytes n : Nat) : Nat := if place ≤ n then n + bytes else n

theorem pushed_of_le {place n : Nat} (bytes : Nat) (h : place ≤ n) : pushed place bytes n = n + bytes := if_pos h

theorem pushed_of_lt {place n : Nat} (bytes : Nat) (h : n < place) : pushed place bytes n = n :=
  if_neg (Nat.not_le.mpr h)

end Text

namespace Token

/-- Whether a place is clear of tokens: a token that starts before it ends before it, with something between.
Such places are the start of a text and those that have layout in front of them. -/
def Clear (place : Nat) (ts : List Token) : Prop := ∀ t ∈ ts, t.span.stop < place ∨ place ≤ t.span.start

instance (place : Nat) (ts : List Token) : Decidable (Clear place ts) :=
  inferInstanceAs (Decidable (∀ t ∈ ts, _))

theorem clear_zero (ts : List Token) : Clear 0 ts := fun t _ => .inr (Nat.zero_le t.span.start)

/-- A place in a gap behind a token, up to the start of the next token if there is one. -/
theorem clear_of_gap {ts p r : List Token} {t : Token} {place : Nat} (h : InOrder ts) (hts : ts = p ++ [t] ++ r)
    (hstop : t.span.stop < place) (hnext : ∀ u ∈ r.head?, place ≤ u.span.start) : Clear place ts := by
  subst hts
  intro u hu
  rcases List.mem_append.mp hu with hu | hu
  · have hlast := h.left.stop_le_getLast (by simp) hu
    rw [List.getLast_append_singleton] at hlast
    exact .inl (Nat.lt_of_le_of_lt hlast hstop)
  · have hne := List.ne_nil_of_mem hu
    exact .inr (Nat.le_trans (hnext _ (List.head?_eq_some_head hne)) (h.right.head_le_start hne hu))

/-- A place that the first token does not reach up to lies in the rest of the text. -/
theorem exists_rest_of_clear {pos : Nat} {c : Char} {x rest a b : List Char} (ha : a ≠ [])
    (htext : a ++ b = c :: (x ++ rest))
    (hclear : pos + byteSize (c :: x) < pos + byteSize a ∨ pos + byteSize a ≤ pos) :
    ∃ y, y ≠ [] ∧ a = c :: (x ++ y) ∧ rest = y ++ b := by
  obtain ⟨d, a, rfl⟩ := List.exists_cons_of_ne_nil ha
  have hpos := byteSize_cons_pos d a
  rw [← List.cons_append] at htext
  rcases List.append_eq_append_iff.mp htext.symm with ⟨y, hy, hrest⟩ | ⟨y, hy, -⟩
  · refine ⟨y, ?_, hy, hrest⟩
    rintro rfl
    rw [List.append_nil] at hy
    rw [hy] at hclear hpos
    omega
  · have hsize := byteSize_append (d :: a) y
    rw [← hy] at hsize
    omega

theorem Clear.tail {place : Nat} {t : Token} {ts : List Token} (h : Clear place (t :: ts)) : Clear place ts :=
  fun u hu => h u (List.mem_cons_of_mem t hu)

/-- A clear place behind some text has layout in front of it. -/
theorem exists_layout_of_clear {pos : Nat} {a b : List Char} (ha : a ≠ [])
    (hclear : Clear (pos + byteSize a) (lexFrom pos (a ++ b))) : ∃ y g, a = y ++ [g] ∧ isLayout g := by
  generalize htext : a ++ b = cs at hclear
  induction pos, cs using lexFrom_induction generalizing a with
  | nil pos => exact absurd (List.append_eq_nil_iff.mp htext).1 ha
  | layout pos c cs hc ih =>
      obtain ⟨d, a, rfl⟩ := List.exists_cons_of_ne_nil ha
      obtain ⟨rfl, rfl⟩ := List.cons.inj htext
      by_cases hempty : a = []
      · exact ⟨[], d, by rw [hempty]; rfl, hc⟩
      · rw [lexFrom_layout hc, byteSize, ← Nat.add_assoc] at hclear
        obtain ⟨y, g, rfl, hg⟩ := ih hempty rfl hclear
        exact ⟨d :: y, g, rfl, hg⟩
  | token pos c x rest kind hlead ih =>
      rw [hlead.lexFrom_eq pos (List.append_nil rest).symm] at hclear
      obtain ⟨y, hy, rfl, rfl⟩ := exists_rest_of_clear ha htext (hclear _ List.mem_cons_self)
      have hsize : pos + byteSize (c :: (x ++ y)) = pos + byteSize (c :: x) + byteSize y := by
        rw [← List.cons_append, byteSize_append, Nat.add_assoc]
      obtain ⟨y, g, rfl, hg⟩ := ih hy rfl (hsize ▸ hclear.tail)
      exact ⟨c :: (x ++ y), g, by simp, hg⟩

theorem mapOffsets_pushed_of_le {place : Nat} (bytes : Nat) {t : Token} (h : place ≤ t.span.start)
    (ht : t.span.start < t.span.stop) : t.mapOffsets (pushed place bytes) = t.mapOffsets (· + bytes) := by
  rw [mapOffsets, mapOffsets, Span.mapOffsets, pushed_of_le bytes h, pushed_of_le bytes (by omega)]
  rfl

theorem mapOffsets_pushed_of_lt {place : Nat} (bytes : Nat) {t : Token} (h : t.span.stop < place)
    (ht : t.span.start < t.span.stop) : t.mapOffsets (pushed place bytes) = t := by
  rw [mapOffsets, Span.mapOffsets, pushed_of_lt bytes h, pushed_of_lt bytes (ht.trans h)]

theorem lexFrom_insert_front {w : List Char} (hw : ∀ c ∈ w, isLayout c) (pos : Nat) (b : List Char) :
    lexFrom pos (w ++ b) = (lexFrom pos b).map (mapOffsets (pushed pos (byteSize w))) := by
  rw [lexFrom_layouts hw, lexFrom_add]
  refine List.map_congr_left fun t ht => ?_
  exact (mapOffsets_pushed_of_le _ (start_ge_of_mem ht) ((lexFrom_inOrder pos b).nonempty t ht)).symm

/-- The first token of a text is the same when layout is put in at a clear place behind it. -/
theorem first_insert {pos : Nat} {c : Char} {x y b w : List Char} {kind : TokenKind} (hw : ∀ c ∈ w, isLayout c)
    (hy : y ≠ []) (hfirst : Lexeme.first (c :: (x ++ (y ++ b))) = (kind, x.length + 1))
    (hclear : Clear (pos + byteSize y) (lexFrom pos (y ++ b))) :
    Lexeme.first (c :: (x ++ (y ++ (w ++ b)))) = (kind, x.length + 1) := by
  obtain ⟨y, g, rfl, hg⟩ := exists_layout_of_clear hy hclear
  have htext (z : List Char) : c :: (x ++ (y ++ [g] ++ z)) = c :: (x ++ y) ++ g :: z := by simp
  rw [htext] at hfirst ⊢
  rw [Lexeme.first_behind_layout hg (List.cons_ne_nil c _) ?_ (Lexeme.beforeClose_layouts hw).symm, hfirst]
  rw [hfirst, List.length_cons, List.length_append]
  dsimp only
  omega

/-- Layout put in at a clear place moves the tokens behind it. -/
theorem lexFrom_insert {pos : Nat} {a b w : List Char} (hw : ∀ c ∈ w, isLayout c)
    (hclear : Clear (pos + byteSize a) (lexFrom pos (a ++ b))) :
    lexFrom pos (a ++ (w ++ b)) =
      (lexFrom pos (a ++ b)).map (mapOffsets (pushed (pos + byteSize a) (byteSize w))) := by
  generalize htext : a ++ b = cs at hclear ⊢
  induction pos, cs using lexFrom_induction generalizing a with
  | nil pos =>
      obtain ⟨rfl, rfl⟩ := List.append_eq_nil_iff.mp htext
      exact lexFrom_insert_front hw pos []
  | layout pos c cs hc ih =>
      cases a with
      | nil => exact htext ▸ lexFrom_insert_front hw pos b
      | cons d a =>
          obtain ⟨rfl, hcs⟩ := List.cons.inj htext
          rw [lexFrom_layout hc, byteSize, ← Nat.add_assoc] at hclear
          rw [List.cons_append, lexFrom_layout hc, lexFrom_layout hc, ih hcs hclear, byteSize, ← Nat.add_assoc]
  | token pos c x rest kind hlead ih =>
      by_cases ha : a = []
      · subst ha
        exact htext ▸ lexFrom_insert_front hw pos b
      · have hlex := hlead.lexFrom_eq pos (List.append_nil rest).symm
        rw [hlex] at hclear ⊢
        obtain ⟨y, hy, rfl, rfl⟩ := exists_rest_of_clear ha htext (hclear _ List.mem_cons_self)
        have hsize : pos + byteSize (c :: (x ++ y)) = pos + byteSize (c :: x) + byteSize y := by
          rw [← List.cons_append, byteSize_append, Nat.add_assoc]
        rw [hsize] at hclear ⊢
        have hfirst := first_insert hw hy (hlead.first_eq _ _ (List.append_nil _).symm) hclear.tail
        have hpos := byteSize_cons_pos c x
        have hstop := (hclear _ List.mem_cons_self).resolve_right (by dsimp only; omega)
        rw [List.cons_append, List.append_assoc, lexFrom_token hlead.not_layout hfirst, ih rfl hclear.tail,
          List.map_cons, mapOffsets_pushed_of_lt _ hstop (by dsimp only; omega)]

end Token

/-- Behind layout that is put in, lines grow by the newlines in it. -/
theorem LineTable.lineOf_pushed {source spaced : String} {a w b : List Char} (hsource : source.toList = a ++ b)
    (hspaced : spaced.toList = a ++ (w ++ b)) (n : Nat) :
    (ofSource spaced).lineOf (pushed (byteSize a) (byteSize w) n) =
      (ofSource source).lineOf n + if byteSize a ≤ n then w.count '\n' else 0 := by
  by_cases hn : byteSize a ≤ n
  · have hrear (x : List Char) : x ++ b = x ++ (String.ofList b).toList := by rw [String.toList_ofList]
    obtain ⟨m, rfl⟩ := Nat.exists_eq_add_of_le' hn
    rw [hrear] at hsource
    rw [← List.append_assoc, hrear] at hspaced
    have hlines := lineOf_append hspaced m
    rw [byteSize_append, Nat.add_comm (byteSize a), ← Nat.add_assoc, Nat.add_right_comm] at hlines
    rw [pushed_of_le _ hn, hlines, lineOf_append hsource, if_pos hn, List.count_append, Nat.add_assoc]
  · rw [pushed_of_lt _ (Nat.lt_of_not_le hn), if_neg hn, lineOf_of_lt hsource (Nat.lt_of_not_le hn),
      lineOf_of_lt hspaced (Nat.lt_of_not_le hn), Nat.add_zero]

/-- Layout put in at a clear place changes a document only in what stands behind it: the bounds of spans grow
by the bytes put in and the lines of declarations by the newlines. -/
theorem scan_insert_layout (before other : Extractor) (front layout rear path : String)
    (hlayout : ∀ c ∈ layout.toList, Token.isLayout c)
    (hclear : Token.Clear (byteSize front.toList) (Token.lex (front ++ rear))) :
    let plain := before.scan (front ++ rear) path
    let spaced := other.scan (front ++ layout ++ rear) path
    spaced.1.toContents = plain.1.toContents.relocate (pushed (byteSize front.toList) (byteSize layout.toList))
        (fun n => if byteSize front.toList ≤ n then layout.toList.count '\n' else 0) ∧
      spaced.1.declarations.map (·.hasParameters) = plain.1.declarations.map (·.hasParameters) ∧
      spaced.1.package = plain.1.package ∧ spaced.1.path = plain.1.path ∧ spaced.2 = plain.2 := by
  have hsource : (front ++ rear).toList = front.toList ++ rear.toList := String.toList_append
  have hspaced : (front ++ layout ++ rear).toList = front.toList ++ (layout.toList ++ rear.toList) := by
    rw [String.toList_append, String.toList_append, List.append_assoc]
  have htokens : Token.lex (front ++ layout ++ rear) = (Token.lex (front ++ rear)).map
      (Token.mapOffsets (pushed (byteSize front.toList) (byteSize layout.toList))) := by
    rw [Token.lex, hsource, ← Nat.zero_add (byteSize front.toList)] at hclear
    rw [Token.lex, Token.lex, hspaced, hsource, Token.lexFrom_insert hlayout hclear, Nat.zero_add]
  have hne : ∀ piece ∈ Piece.leftmost (Token.lex (front ++ rear)), piece.tokens ≠ [] :=
    fun _ => Piece.tokens_ne_nil_of_mem_leftmost
  have hdigest := Document.digest_map (LineTable.lineOf_pushed hsource hspaced) .empty hne
  rw [← Piece.leftmost_map (Token.recasts_mapOffsets _), ← htokens] at hdigest
  rw [Extractor.scan_eq, Extractor.scan_eq, hdigest]
  exact ⟨rfl, Contents.hasParameters_relocate _ _ _, Contents.package_relocate _ _ _, rfl, rfl⟩

/-- A documented function, of which is shown where it stands, on which line, where the function inside it stands and
what documents it: as it is, with a blank line in front of it, and with one in it in front of the function inside. -/
theorem scan_insert_layout_nested :
    let found (source : String) := (({} : Extractor).scan source "").1
    let shown (contents : Contents) := contents.declarations.map fun d =>
      (d.span, d.line, d.construct.nestedFunctions.map (·.span), d.doc)
    let plain := found ("/// f\nfunction f; " ++ "function g; endfunction endfunction")
    let behindLine := found ("" ++ "\n" ++ "/// f\nfunction f; function g; endfunction endfunction")
    let withGap := found ("/// f\nfunction f; " ++ "\n\r\n" ++ "function g; endfunction endfunction")
    Token.Clear 18 (Token.lex ("/// f\nfunction f; " ++ "function g; endfunction endfunction")) ∧
      shown plain.toContents = [(⟨6, 53⟩, 2, [⟨18, 41⟩], some "\nf")] ∧
      behindLine.toContents = plain.toContents.relocate (pushed 0 1) (fun n => if 0 ≤ n then 1 else 0) ∧
      shown behindLine.toContents = [(⟨7, 54⟩, 3, [⟨19, 42⟩], some "\nf")] ∧
      withGap.toContents = plain.toContents.relocate (pushed 18 3) (fun n => if 18 ≤ n then 2 else 0) ∧
      shown withGap.toContents = [(⟨6, 56⟩, 2, [⟨21, 44⟩], some "\nf")] := by
  have hlex : Token.lex ("/// f\nfunction f; " ++ "function g; endfunction endfunction") =
      [⟨.comment .docLine, "/// f", ⟨0, 5⟩⟩, ⟨.word, "function", ⟨6, 14⟩⟩, ⟨.word, "f", ⟨15, 16⟩⟩] ++
        [⟨.mark .semicolon, ";", ⟨16, 17⟩⟩] ++
        [⟨.word, "function", ⟨18, 26⟩⟩, ⟨.word, "g", ⟨27, 28⟩⟩, ⟨.mark .semicolon, ";", ⟨28, 29⟩⟩,
          ⟨.word, "endfunction", ⟨30, 41⟩⟩, ⟨.word, "endfunction", ⟨42, 53⟩⟩] := by decide +kernel
  have hclear := Token.clear_of_gap (Token.lex_inOrder _) hlex (Nat.lt_succ_self 17) (by simp)
  have hfront := (scan_insert_layout {} {} "" "\n" "/// f\nfunction f; function g; endfunction endfunction" ""
    (List.all_eq_true.mp (by decide)) (Token.clear_zero _)).1
  have hsame : "" ++ "/// f\nfunction f; function g; endfunction endfunction" =
      "/// f\nfunction f; " ++ "function g; endfunction endfunction" := by decide
  rw [hsame] at hfront
  have hinside := (scan_insert_layout {} {} "/// f\nfunction f; " "\n\r\n" "function g; endfunction endfunction"
    "" (List.all_eq_true.mp (by decide)) hclear).1
  exact ⟨hclear, by decide +kernel, hfront, by decide +kernel, hinside, by decide +kernel⟩

end BluespecDocs
