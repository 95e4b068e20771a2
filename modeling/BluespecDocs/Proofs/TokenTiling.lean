import BluespecDocs.Proofs.TokenPlaces

/-!
The tokens of a text tile it. Their spans lie in the text, start and end between characters, are not empty
and follow each other without overlap, and each byte outside all of them is layout. So no part of a text is
lost and none is read twice.
-/

namespace BluespecDocs

namespace Text

theorem length_utf8Encode (cs : List Char) : (cs.flatMap String.utf8EncodeChar).length = byteSize cs := by
  induction cs with
  | nil => rfl
  | cons c cs ih => rw [List.flatMap_cons, List.length_append, ih, String.length_utf8EncodeChar, byteSize]

theorem toByteArray_data (source : String) :
    source.toByteArray.data.toList = source.toList.flatMap String.utf8EncodeChar := by
  rw [← String.utf8Encode_toList, List.utf8Encode, List.data_toByteArray]

theorem byteSize_toList (source : String) : byteSize source.toList = source.utf8ByteSize := by
  rw [← length_utf8Encode, ← toByteArray_data, Array.length_toList, ← String.size_toByteArray]
  rfl

/-- The bytes in front of a cut between two characters end at a valid position. -/
theorem isValid_of_append {source : String} {a b : List Char} (h : source.toList = a ++ b) :
    String.Pos.Raw.IsValid source ⟨byteSize a⟩ := by
  refine String.Pos.Raw.isValid_iff_exists_append.mpr ⟨String.ofList a, String.ofList b, ?_, ?_⟩
  · rw [← String.ofList_append, ← h, String.ofList_toList]
  · have hsize := byteSize_toList (String.ofList a)
    rw [String.toList_ofList] at hsize
    rw [hsize]
    rfl

end Text

open Text

namespace Token

/-- The layout characters as bytes: space, tab, carriage return, newline and form feed. -/
def layoutBytes : List UInt8 := [0x20, 0x09, 0x0d, 0x0a, 0x0c]

/-- Tokens that tile a source text. -/
structure Tiles (source : String) (ts : List Token) : Prop where
  nonempty : ∀ t ∈ ts, t.span.start < t.span.stop
  within : ∀ t ∈ ts, t.span.stop ≤ source.utf8ByteSize
  boundaries : ∀ t ∈ ts, String.Pos.Raw.IsValid source ⟨t.span.start⟩ ∧
    String.Pos.Raw.IsValid source ⟨t.span.stop⟩
  increasing : ts.Pairwise fun t u => t.span.start < u.span.start ∧ t.span.stop < u.span.stop
  apart : ts.Pairwise fun t u => t.span.stop ≤ u.span.start
  outside : ∀ n byte, source.toByteArray.data[n]? = some byte →
    (∀ t ∈ ts, ¬ (t.span.start ≤ n ∧ n < t.span.stop)) → byte ∈ layoutBytes

theorem utf8EncodeChar_layout {c : Char} (hc : isLayout c) :
    ∃ byte ∈ layoutBytes, String.utf8EncodeChar c = [byte] := by
  simp only [isLayout, Bool.or_eq_true, beq_iff_eq] at hc
  rcases hc with (((rfl | rfl) | rfl) | rfl) | rfl <;> exact ⟨_, by decide, rfl⟩

/-- A byte of a text at `pos` that no token covers is layout. -/
theorem mem_layoutBytes_of_outside {pos n : Nat} {byte : UInt8} {cs : List Char}
    (hbyte : (cs.flatMap String.utf8EncodeChar)[n]? = some byte)
    (houtside : ∀ t ∈ lexFrom pos cs, ¬ (t.span.start ≤ pos + n ∧ pos + n < t.span.stop)) :
    byte ∈ layoutBytes := by
  induction pos, cs using lexFrom_induction generalizing n with
  | nil pos => cases hbyte
  | layout pos c cs hc ih =>
      obtain ⟨b, hb, hencode⟩ := utf8EncodeChar_layout hc
      have hsize : c.utf8Size = 1 := by rw [← String.length_utf8EncodeChar, hencode, List.length_singleton]
      rw [List.flatMap_cons, hencode, List.singleton_append] at hbyte
      rw [lexFrom_layout hc, hsize] at houtside
      cases n with
      | zero =>
          cases hbyte
          exact hb
      | succ n =>
          rw [hsize] at ih
          refine ih (n := n) hbyte ?_
          rwa [Nat.add_assoc, Nat.add_comm 1 n]
  | token pos c x rest kind hlead ih =>
      rw [hlead.lexFrom_eq pos (List.append_nil rest).symm] at houtside
      have hfirst := houtside _ List.mem_cons_self
      dsimp only at hfirst
      -- The byte lies behind the first token, since it does not lie in it.
      obtain ⟨m, rfl⟩ : ∃ m, n = byteSize (c :: x) + m := Nat.exists_eq_add_of_le (by omega)
      rw [← List.cons_append, List.flatMap_append, ← length_utf8Encode,
        List.getElem?_append_right (Nat.le_add_right _ _), Nat.add_sub_cancel_left] at hbyte
      refine ih hbyte fun t ht => ?_
      rw [Nat.add_assoc]
      exact houtside t (List.mem_cons_of_mem _ ht)

/-- The tokens of a source text tile it. -/
theorem lex_tiles (source : String) : Tiles source (lex source) := by
  have hinOrder := lex_inOrder source
  have hplace (t : Token) (ht : t ∈ lex source) : String.Pos.Raw.IsValid source ⟨t.span.start⟩ ∧
      String.Pos.Raw.IsValid source ⟨t.span.stop⟩ := by
    obtain ⟨a, b, hsource, hspan, -⟩ := exists_text_of_mem ht
    rw [hspan, Nat.zero_add]
    refine ⟨isValid_of_append hsource, ?_⟩
    rw [← byteSize_append]
    rw [← List.append_assoc] at hsource
    exact isValid_of_append hsource
  refine {
    nonempty := hinOrder.nonempty
    within := fun t ht => (hplace t ht).2.le_utf8ByteSize
    boundaries := hplace
    increasing := hinOrder.apart.imp_of_mem fun {t u} ht hu hle => ?_
    apart := hinOrder.apart
    outside := fun n byte hbyte houtside => ?_ }
  · have ht := hinOrder.nonempty t ht
    have hu := hinOrder.nonempty u hu
    omega
  · rw [← Array.getElem?_toList, toByteArray_data] at hbyte
    refine @mem_layoutBytes_of_outside 0 n byte source.toList hbyte ?_
    rwa [Nat.zero_add]

end Token

end BluespecDocs
