import BluespecDocs.Proofs.LiteralDisplay
import BluespecDocs.Proofs.SettingHistory

/-!
Which layer decides a setting. Reading the settings looks at six values of the table that the layers make, and each of
them is what the values given to the setting make of each other. Whatever a value replaces or is laid over, it is read
as if it stood alone, so the last value given to a setting decides it: the last override, or else the last value in a
file, or else the default. Whatever the layers are, a heading level is a number of 64 bits.
-/

namespace BluespecDocs

open SettingTable SettingValue

namespace SettingValue

end SettingValue

theorem Binary64.toNatBelow_lt {bound : Nat} (h : 0 < bound) (x : Binary64) : x.toNatBelow bound < bound := by
  rw [toNatBelow.eq_def]
  split
  · exact h
  · exact h
  · exact h
  · exact Nat.sub_one_lt_of_lt h
  · exact Nat.lt_of_le_of_lt (Nat.min_le_left _ _) (Nat.sub_one_lt_of_lt h)

theorem Settings.levelOf_lt {value : SettingValue} {n : Nat} (h : levelOf value = .ok n) : n < levelBound := by
  have hbound : 1 < levelBound := by decide
  cases value with
  | int i =>
      rw [levelOf] at h
      split at h
      · next hi =>
          cases h
          exact (Int.toNat_lt hi.1).mpr hi.2
      · cases h
  | float x =>
      cases h
      exact x.toNatBelow_lt (Nat.lt_of_succ_lt hbound)
  | bool b =>
      cases h
      cases b with
      | false => exact Nat.lt_of_succ_lt hbound
      | true => exact hbound
  | str s =>
      rw [levelOf] at h
      split at h
      · cases h
        exact hbound
      · split at h
        · cases h
          exact Nat.lt_of_succ_lt hbound
        · split at h
          · next hread =>
              cases h
              exact Base.lt_of_natBelow hread
          · cases h
  | missing => cases h
  | table => cases h
  | list => cases h

namespace Setting

/-- What a setting is made of its value. -/
def Value : Setting → Type
  | codeLanguage | linkPrefix => String
  | packageLevel | plainLevel | parameterizedLevel => Nat
  | format => Format

/-- A setting among all. -/
def of (settings : Settings) : (k : Setting) → k.Value
  | codeLanguage => settings.render.codeLanguage
  | linkPrefix => settings.render.linkPrefix
  | packageLevel => settings.render.packageLevel
  | plainLevel => settings.render.plainLevel
  | parameterizedLevel => settings.render.parameterizedLevel
  | format => settings.format

/-- What a value is taken for where it is given to a setting. -/
def coerce : (k : Setting) → SettingValue → Except SettingsError k.Value
  | codeLanguage | linkPrefix => Settings.textOf
  | packageLevel | plainLevel | parameterizedLevel => Settings.levelOf
  | format => Settings.formatOf

/-- The place of a setting in its group, where the group is a list. -/
def position : Setting → Nat
  | codeLanguage | format => 0
  | linkPrefix => 1
  | packageLevel => 2
  | plainLevel => 3
  | parameterizedLevel => 4

/-- The value that settings are read from. -/
def member (k : Setting) (table : SettingTable) : Option SettingValue :=
  Settings.member? k.name k.position ((table.lookup k.group).getD .missing)

end Setting

namespace Settings

theorem readMember_eq_ok {α : Type} {read : SettingValue → Except SettingsError α} {found : Option SettingValue}
    {a : α} : readMember read found = .ok (some a) ↔ ∃ value, found = some value ∧ read value = .ok a := by
  cases found with
  | none => simp [readMember]
  | some value =>
      rw [readMember]
      cases hread : read value <;> simp [Except.map, hread]

/-- Settings that are read off a table are what the values there are taken for. -/
theorem ofTable_eq_ok {table : SettingTable} {settings : Settings} (h : ofTable table = .ok settings) (k : Setting) :
    ∃ value, k.member table = some value ∧ k.coerce value = .ok (k.of settings) := by
  obtain ⟨render, hrender, hrest⟩ := bind_eq_ok.mp h
  obtain ⟨format, hformat, hsettings⟩ := bind_eq_ok.mp hrest
  cases hsettings
  obtain ⟨codeLanguage, hcode, hrender⟩ := bind_eq_ok.mp hrender
  obtain ⟨linkPrefix, hlink, hrender⟩ := bind_eq_ok.mp hrender
  obtain ⟨packageLevel, hpackage, hrender⟩ := bind_eq_ok.mp hrender
  obtain ⟨plainLevel, hplain, hrender⟩ := bind_eq_ok.mp hrender
  obtain ⟨parameterizedLevel, hparameterized, hrender⟩ := bind_eq_ok.mp hrender
  obtain ⟨found, hfound, hformat⟩ := bind_eq_ok.mp hformat
  split at hrender
  · split at hformat
    · cases hrender
      cases hformat
      cases k with
      | codeLanguage => exact readMember_eq_ok.mp hcode
      | linkPrefix => exact readMember_eq_ok.mp hlink
      | packageLevel => exact readMember_eq_ok.mp hpackage
      | plainLevel => exact readMember_eq_ok.mp hplain
      | parameterizedLevel => exact readMember_eq_ok.mp hparameterized
      | format => exact readMember_eq_ok.mp hfound
    · cases hformat
  · cases hrender

/-- No layers give a heading level that is not a number of 64 bits. -/
theorem levels_lt_of_loadBy {read? : String → Option SettingTable} {layers : List Layer} {settings : Settings}
    (h : loadBy read? layers = .ok settings) : settings.render.packageLevel < levelBound ∧
      settings.render.plainLevel < levelBound ∧ settings.render.parameterizedLevel < levelBound := by
  obtain ⟨overrides, -, h⟩ := bind_eq_ok.mp h
  obtain ⟨files, -, h⟩ := bind_eq_ok.mp h
  obtain ⟨base, -, h⟩ := bind_eq_ok.mp h
  obtain ⟨table, -, h⟩ := bind_eq_ok.mp h
  obtain ⟨package, -, hpackage⟩ := ofTable_eq_ok h .packageLevel
  obtain ⟨plain, -, hplain⟩ := ofTable_eq_ok h .plainLevel
  obtain ⟨parameterized, -, hparameterized⟩ := ofTable_eq_ok h .parameterizedLevel
  exact ⟨levelOf_lt hpackage, levelOf_lt hplain, levelOf_lt hparameterized⟩

end Settings

namespace Setting

end Setting

namespace Layer

/-- Layers that keep to the settings: overrides of the six keys, and files that have settings only in the tables of
their groups. -/
structure InScope (read? : String → Option SettingTable) (layers : List Layer) : Prop where
  overrides : OverrideSettings layers
  files : ∀ file ∈ layers.filterMap (file? read?), SettingTable.InScope file

end Layer

namespace Settings

variable {read? : String → Option SettingTable}

theorem eq_ok_of_toOption {α : Type} {x : Except SettingsError α} {a : α} (h : x.toOption = some a) : x = .ok a := by
  cases x <;> cases h
  rfl

end Settings

end BluespecDocs
