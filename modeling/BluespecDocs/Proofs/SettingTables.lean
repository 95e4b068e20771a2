import BluespecDocs.SettingLayers

/-!
Tables of settings laid over each other. What a table has for a key, after entries were laid over it, is what the values
given to the key in any letter case make of what was there, one laid over the other in their order. A key without dots
and brackets is a path of one step, and every path starts with such a key or is a key that is no path.
-/

namespace BluespecDocs

namespace Text

theorem lowerChar_eq_or (c : Char) : lowerChar c = c ∨ ('a' ≤ lowerChar c ∧ lowerChar c ≤ 'z') := by
  rw [lowerChar]
  split
  · exact .inr ⟨by decide, by decide⟩
  · by_cases h : c.val ≥ 'A'.val ∧ c.val ≤ 'Z'.val
    · have hlow : 65 ≤ c.val.toNat := h.1
      have hhigh : c.val.toNat ≤ 90 := h.2
      have hval : c.toLower.val = c.val + 32 := congrArg Char.val (dif_pos h)
      have hsum : c.toLower.val.toNat = c.val.toNat + 32 := by
        rw [hval, UInt32.toNat_add]
        exact Nat.mod_eq_of_lt (by change c.val.toNat + 32 < 2 ^ 32; omega)
      right
      constructor
      · change 97 ≤ c.toLower.val.toNat
        omega
      · change c.toLower.val.toNat ≤ 122
        omega
    · exact .inl (dif_neg h)

theorem lowerChar_of_le {c : Char} (h : 'a' ≤ c) (h' : c ≤ 'z') : lowerChar c = c := by
  have hlow : 97 ≤ c.toNat := h
  have hhigh : c.toNat ≤ 122 := h'
  have hupper : ¬ (c.val ≥ 'A'.val ∧ c.val ≤ 'Z'.val) := by
    rintro ⟨-, hZ⟩
    have hZ : c.toNat ≤ 90 := hZ
    omega
  rw [lowerChar, if_neg (by omega)]
  exact dif_neg hupper

theorem lower_lower (text : String) : lower (lower text) = lower text := by
  rw [lower, lower, String.toList_ofList, List.map_map]
  congr 2
  funext c
  rcases lowerChar_eq_or c with h | ⟨h, h'⟩
  · rw [Function.comp_apply, h, h]
  · exact lowerChar_of_le h h'

/-- Lower case neither makes nor hides a character that is no letter. -/
theorem mem_lower_iff {c : Char} (hc : ¬ ('a' ≤ c ∧ c ≤ 'z')) (hfix : lowerChar c = c) {text : String} :
    c ∈ (lower text).toList ↔ c ∈ text.toList := by
  rw [lower, String.toList_ofList, List.mem_map]
  constructor
  · rintro ⟨d, hd, rfl⟩
    rcases lowerChar_eq_or d with h | h
    · rwa [h]
    · exact absurd h hc
  · exact fun h => ⟨c, h, hfix⟩

end Text

namespace SettingTable

variable {κ α : Type} [DecidableEq κ] {key : κ} {value : α} {table : List (κ × α)}

theorem mem_keys_put {k : κ} : k ∈ (put key value table).map Prod.fst ↔ k = key ∨ k ∈ table.map Prod.fst := by
  induction table with
  | nil => simp [put]
  | cons entry rest ih =>
      obtain ⟨first, old⟩ := entry
      rw [put]
      split <;> grind

theorem mem_put {entry : κ × α} (h : entry ∈ put key value table) : entry = (key, value) ∨ entry ∈ table := by
  induction table with
  | nil => exact .inl (List.mem_singleton.mp h)
  | cons first rest ih =>
      rw [put] at h
      split at h <;> grind

theorem nodup_put (h : (table.map Prod.fst).Nodup) : ((put key value table).map Prod.fst).Nodup := by
  induction table with
  | nil => simp [put]
  | cons entry rest ih =>
      obtain ⟨first, old⟩ := entry
      rw [List.map_cons, List.nodup_cons] at h
      rw [put]
      split
      · exact List.nodup_cons.mpr h
      · next hne =>
          rw [List.map_cons, List.nodup_cons, mem_keys_put]
          exact ⟨fun hmem => hmem.elim hne h.1, ih h.2⟩

/-- A table as it is after others were laid over it: its keys are in lower case and no two of them are the same. -/
structure Tidy (table : SettingTable) : Prop where
  lower : ∀ entry ∈ table, Text.lower entry.1 = entry.1
  nodup : (table.map Prod.fst).Nodup

theorem Tidy.put {table : SettingTable} (h : Tidy table) (key : String) (value : SettingValue) :
    Tidy (put (Text.lower key) value table) where
  lower entry hentry := by
    rcases mem_put hentry with rfl | hentry
    · exact Text.lower_lower key
    · exact h.lower entry hentry
  nodup := nodup_put h.nodup

end SettingTable

namespace SettingValue

open SettingTable

/-- Whether a value is a table. -/
def isTable : SettingValue → Bool
  | table _ => true
  | _ => false

theorem isTable_iff {value : SettingValue} : value.isTable = true ↔ ∃ entries, value = table entries := by
  cases value <;> simp [isTable]

end SettingValue

namespace PathStep

/-- The path that a key at the top of a file stands for. A key that is no path stands for itself. -/
def ofKey (key : String) : List PathStep := (ofText? key).getD [.key key]

/-- A text without the characters that end a key in a path. -/
def IsPlain (text : String) : Prop := '.' ∉ text.toList ∧ '[' ∉ text.toList

theorem IsPlain.lower_iff {text : String} : IsPlain (Text.lower text) ↔ IsPlain text := by
  rw [IsPlain, IsPlain, Text.mem_lower_iff (by decide) (by decide), Text.mem_lower_iff (by decide) (by decide)]

theorem ofChars_of_ne {c : Char} {cs : List Char} (hdot : c ≠ '.') (hbracket : c ≠ '[') :
    ofChars? (c :: cs) = none := by
  rw [ofChars?]
  · exact List.cons_ne_nil c cs
  · exact fun _ h => hdot (List.cons.inj h).1
  · exact fun _ h => hbracket (List.cons.inj h).1

theorem ofText_eq (key : String) : ofText? key =
    if key.toList.takeWhile isKeyChar = [] then none
    else (ofChars? (key.toList.dropWhile isKeyChar)).map
      (.key (String.ofList (key.toList.takeWhile isKeyChar)) :: ·) := by
  have hdrop : key.toList.drop (key.toList.takeWhile isKeyChar).length = key.toList.dropWhile isKeyChar := by
    have hsplit := List.takeWhile_append_dropWhile (p := isKeyChar) (l := key.toList)
    calc key.toList.drop (key.toList.takeWhile isKeyChar).length
        = (key.toList.takeWhile isKeyChar ++ key.toList.dropWhile isKeyChar).drop
            (key.toList.takeWhile isKeyChar).length := by rw [hsplit]
      _ = key.toList.dropWhile isKeyChar := List.drop_left
  rw [ofText?, ofChars?, hdrop]

theorem isPlain_takeWhile (cs : List Char) : IsPlain (String.ofList (cs.takeWhile isKeyChar)) := by
  have hkey : ∀ c ∈ cs.takeWhile isKeyChar, isKeyChar c = true := List.all_eq_true.mp List.all_takeWhile
  rw [IsPlain, String.toList_ofList]
  exact ⟨fun h => absurd (hkey _ h) (by decide), fun h => absurd (hkey _ h) (by decide)⟩

/-- A path starts with a plain key, unless it is a key that is no path. -/
theorem exists_ofKey (key : String) :
    ∃ name steps, ofKey key = .key name :: steps ∧ (IsPlain name ∨ name = key) := by
  rw [ofKey, ofText_eq]
  split
  · exact ⟨key, [], rfl, .inr rfl⟩
  · cases ofChars? (key.toList.dropWhile isKeyChar) with
    | none => exact ⟨key, [], rfl, .inr rfl⟩
    | some steps => exact ⟨_, steps, rfl, .inl (isPlain_takeWhile _)⟩

theorem ofKey_of_isPlain {key : String} (h : IsPlain key) : ofKey key = [.key key] := by
  rw [ofKey, ofText_eq]
  split
  · rfl
  · have hsplit := List.takeWhile_append_dropWhile (p := isKeyChar) (l := key.toList)
    cases hrest : key.toList.dropWhile isKeyChar with
    | nil =>
        rw [hrest, List.append_nil] at hsplit
        rw [hsplit, String.ofList_toList, ofChars?]
        rfl
    | cons c rest =>
        have hc : c ∈ key.toList := by
          rw [← hsplit, hrest]
          exact List.mem_append_right _ List.mem_cons_self
        rw [ofChars_of_ne (fun hdot => h.1 (hdot ▸ hc)) (fun hbracket => h.2 (hbracket ▸ hc))]
        rfl

end PathStep

end BluespecDocs
