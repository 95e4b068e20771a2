import BluespecDocs.LineTable
import BluespecDocs.Span

/-!
Line numbers. Halving the table of line starts counts the starts that do not exceed an offset, because the
starts increase. Behind a piece of text the lines are counted on from the newlines in it.
-/

namespace BluespecDocs

namespace LineTable

theorem lt_of_mem_startsAfter {pos n : Nat} {cs : List Char} (h : n ∈ startsAfter pos cs) : pos < n := by
  induction cs generalizing pos with
  | nil => cases h
  | cons c cs ih =>
      have hsize := c.utf8Size_pos
      rw [startsAfter] at h
      split at h
      · rcases List.mem_cons.mp h with rfl | h
        · omega
        · have := ih h
          omega
      · have := ih h
        omega

theorem countP_startsAfter_eq_zero {pos n : Nat} (h : n ≤ pos) (cs : List Char) :
    (startsAfter pos cs).countP (· ≤ n) = 0 := by
  refine List.countP_eq_zero.mpr fun start hstart => ?_
  have := lt_of_mem_startsAfter hstart
  rw [decide_eq_true_eq]
  omega

theorem startsAfter_pairwise (pos : Nat) (cs : List Char) : (startsAfter pos cs).Pairwise (· < ·) := by
  induction cs generalizing pos with
  | nil => exact List.Pairwise.nil
  | cons c cs ih =>
      rw [startsAfter]
      split
      · exact List.Pairwise.cons (fun n hn => lt_of_mem_startsAfter hn) (ih _)
      · exact ih _

/-- In an increasing list the entries up to `n` come first. -/
theorem getElem_le_iff {l : List Nat} (h : l.Pairwise (· < ·)) (n : Nat) {i : Nat} (hi : i < l.length) :
    l[i] ≤ n ↔ i < l.countP (· ≤ n) := by
  induction h generalizing i with
  | nil => cases hi
  | @cons a l hlt hl ih =>
      by_cases ha : a ≤ n
      · rw [List.countP_cons_of_pos (by simpa using ha)]
        cases i with
        | zero => simpa using ha
        | succ i =>
            rw [List.getElem_cons_succ, ih (by simpa using hi)]
            omega
      · have hzero : l.countP (· ≤ n) = 0 := by
          refine List.countP_eq_zero.mpr fun b hb => ?_
          have := hlt b hb
          simp only [decide_eq_true_eq]
          omega
        rw [List.countP_cons_of_neg (by simpa using ha), hzero]
        have hle : a ≤ (a :: l)[i] := by
          cases i with
          | zero => exact Nat.le_refl a
          | succ i => exact Nat.le_of_lt (hlt _ (List.getElem_mem _))
        omega

/-- The search keeps the number of entries up to `n` between its two bounds. -/
theorem countUpTo_eq {l : List Nat} (h : l.Pairwise (· < ·)) {n low high : Nat} (hlow : low ≤ l.countP (· ≤ n))
    (hcount : l.countP (· ≤ n) ≤ high) (hhigh : high ≤ l.length) :
    countUpTo ⟨l.toArray⟩ n low high = l.countP (· ≤ n) := by
  have hentry {i : Nat} (hi : i < l.length) : l.toArray.getD i 0 ≤ n ↔ i < l.countP (· ≤ n) := by
    rw [← getElem_le_iff h n hi, Array.getD_eq_getD_getElem?, List.getElem?_toArray,
      List.getElem?_eq_getElem hi, Option.getD_some]
  fun_induction countUpTo ⟨l.toArray⟩ n low high with
  | case1 low high hlt middle hle ih =>
      have hmiddle := (hentry (by omega)).mp hle
      exact ih hmiddle hcount hhigh
  | case2 low high hlt middle hgt ih =>
      have hmiddle := mt (hentry (by omega)).mpr hgt
      exact ih hlow (by omega) (by omega)
  | case3 low high hge => omega

theorem starts_pairwise (source : String) : (0 :: startsAfter 0 source.toList).Pairwise (· < ·) :=
  List.Pairwise.cons (fun _ hstart => lt_of_mem_startsAfter hstart) (startsAfter_pairwise 0 source.toList)

theorem lineOf_eq_countP (source : String) (n : Nat) :
    (ofSource source).lineOf n = (0 :: startsAfter 0 source.toList).countP (· ≤ n) :=
  countUpTo_eq (starts_pairwise source) (Nat.zero_le _) List.countP_le_length (Nat.le_refl _)

/-- The line of an offset is one more than the number of later lines that start at or before it. -/
theorem lineOf_ofSource (source : String) (n : Nat) :
    (ofSource source).lineOf n = 1 + (startsAfter 0 source.toList).countP (· ≤ n) := by
  rw [lineOf_eq_countP, List.countP_cons_of_pos (by simp), Nat.add_comm]

theorem lineOf_zero (source : String) : (ofSource source).lineOf 0 = 1 := by
  rw [lineOf_ofSource, countP_startsAfter_eq_zero (Nat.le_refl 0)]

theorem startsAfter_append (pos : Nat) (a b : List Char) :
    startsAfter pos (a ++ b) = startsAfter pos a ++ startsAfter (pos + Text.byteSize a) b := by
  induction a generalizing pos with
  | nil => rfl
  | cons c a ih =>
      rw [List.cons_append, startsAfter, startsAfter, Text.byteSize, ← Nat.add_assoc, ih]
      split
      · rfl
      · rfl

theorem startsAfter_add (d pos : Nat) (cs : List Char) :
    startsAfter (pos + d) cs = (startsAfter pos cs).map (· + d) := by
  induction cs generalizing pos with
  | nil => rfl
  | cons c cs ih =>
      rw [startsAfter, startsAfter, Nat.add_right_comm, ih]
      split
      · rfl
      · rfl

theorem length_startsAfter (pos : Nat) (cs : List Char) : (startsAfter pos cs).length = cs.count '\n' := by
  induction cs generalizing pos with
  | nil => rfl
  | cons c cs ih =>
      rw [startsAfter]
      split
      · next hc => rw [List.length_cons, ih, hc, List.count_cons_self]
      · next hc => rw [ih, List.count_cons_of_ne hc]

theorem le_of_mem_startsAfter {pos n : Nat} {cs : List Char} (h : n ∈ startsAfter pos cs) :
    n ≤ pos + Text.byteSize cs := by
  induction cs generalizing pos with
  | nil => cases h
  | cons c cs ih =>
      rw [Text.byteSize, ← Nat.add_assoc]
      rw [startsAfter] at h
      split at h
      · rcases List.mem_cons.mp h with rfl | h
        · exact Nat.le_add_right _ _
        · exact ih h
      · exact ih h

/-- Behind a piece of text, a line is that of the rest of the text plus the newlines in the piece. -/
theorem lineOf_append {source rest : String} {a : List Char} (h : source.toList = a ++ rest.toList)
    (n : Nat) : (ofSource source).lineOf (n + Text.byteSize a) = (ofSource rest).lineOf n + a.count '\n' := by
  have hpassed : (startsAfter 0 a).countP (· ≤ n + Text.byteSize a) = a.count '\n' := by
    rw [← length_startsAfter 0 a, List.countP_eq_length]
    intro start hstart
    have := le_of_mem_startsAfter hstart
    rw [decide_eq_true_eq]
    omega
  have hrest : (startsAfter (0 + Text.byteSize a) rest.toList).countP (· ≤ n + Text.byteSize a) =
      (startsAfter 0 rest.toList).countP (· ≤ n) := by
    rw [startsAfter_add, List.countP_map]
    refine List.countP_congr fun start _ => ?_
    simp
  rw [lineOf_ofSource, lineOf_ofSource, h, startsAfter_append, List.countP_append, hpassed, hrest]
  omega

theorem lineOf_byteSize {source : String} {a b : List Char} (h : source.toList = a ++ b) :
    (ofSource source).lineOf (Text.byteSize a) = 1 + a.count '\n' := by
  rw [← String.toList_ofList (l := b)] at h
  have hline := lineOf_append h 0
  rwa [Nat.zero_add, lineOf_zero] at hline

/-- Inside a piece of text at the start, the lines do not depend on the rest of the text. -/
theorem lineOf_of_lt {source : String} {a b : List Char} (h : source.toList = a ++ b) {n : Nat}
    (hn : n < Text.byteSize a) : (ofSource source).lineOf n = 1 + (startsAfter 0 a).countP (· ≤ n) := by
  have hrest : (startsAfter (0 + Text.byteSize a) b).countP (· ≤ n) = 0 :=
    countP_startsAfter_eq_zero (by omega) b
  rw [lineOf_ofSource, h, startsAfter_append, List.countP_append, hrest, Nat.add_zero]

end LineTable

end BluespecDocs
