import BluespecDocs.Proofs.SettingTables

/-!
What a setting goes through. Each of the six settings has a key in one of two groups. A file that keeps to the groups as
tables lays over a setting the values that it gives it under its group, an override lays its value over its own setting,
and neither touches another setting. So the value of a setting in the end is what was given to it, file by file and then
override by override, one laid over the other.
-/

namespace BluespecDocs

open SettingTable SettingValue

/-- The settings, one by one. -/
inductive Setting where
  | codeLanguage | linkPrefix | packageLevel | plainLevel | parameterizedLevel | format
deriving DecidableEq, Repr

namespace Setting

/-- The group that a setting belongs to. -/
def group : Setting → String
  | format => "output"
  | _ => "render"

/-- The groups. -/
def groups : List String := ["render", "output"]

/-- The name of a setting in its group. -/
def name : Setting → String
  | codeLanguage => "code_language"
  | linkPrefix => "link_prefix"
  | packageLevel => "package_heading_level"
  | plainLevel => "plain_heading_level"
  | parameterizedLevel => "parameterized_heading_level"
  | format => "format"

/-- The dotted key of a setting. -/
def key (k : Setting) : String := k.group ++ "." ++ k.name

/-- The path to a setting. -/
def path (k : Setting) : List PathStep := [.key k.group, .key k.name]

theorem lower_of_mem_groups {group : String} (h : group ∈ groups) : Text.lower group = group := by
  revert group
  decide

theorem isPlain_of_mem_groups {group : String} (h : group ∈ groups) : PathStep.IsPlain group := by
  simp only [groups, List.mem_cons, List.not_mem_nil, or_false] at h
  rcases h with rfl | rfl <;> exact ⟨by decide, by decide⟩

end Setting

/-- The entry of the table at the top that a key at the top of a file leads to. -/
def PathStep.target? (key : String) : Option String :=
  match ofKey key with
  | .key name :: _ => some (Text.lower name)
  | _ => none

theorem PathStep.target_of_isPlain {key : String} (h : IsPlain key) : target? key = some (Text.lower key) := by
  rw [target?, ofKey_of_isPlain h]

namespace SettingTable

/-- What a table has for a group, as entries. -/
def groupEntries (group : String) (table : SettingTable) : SettingTable :=
  ((table.lookup group).map entries).getD []

/-- An entry of a file that leads to a group of settings, as it is written or in lower case, is the table of the
group. -/
def EntryInScope (entry : String × SettingValue) : Prop :=
  ∀ group ∈ Setting.groups,
    PathStep.target? entry.1 = some group ∨ PathStep.target? (Text.lower entry.1) = some group →
    Text.lower entry.1 = group ∧ entry.2.isTable = true

/-- A file that has settings only in the tables of their groups; it may hold anything else beside. -/
def InScope (file : SettingTable) : Prop := ∀ entry ∈ file, EntryInScope entry

instance (entry : String × SettingValue) : Decidable (EntryInScope entry) :=
  inferInstanceAs (Decidable (∀ group ∈ Setting.groups, _ → _))

instance (file : SettingTable) : Decidable (InScope file) :=
  inferInstanceAs (Decidable (∀ entry ∈ file, EntryInScope entry))

/-- A table that files have been laid over. It keeps to the groups itself, and no key occurs twice in it or in a
group. -/
structure Laid (table : SettingTable) : Prop where
  tidy : Tidy table
  inScope : InScope table
  groups : ∀ group ∈ Setting.groups, Tidy (groupEntries group table)

theorem target_of_mem_groups {group : String} (h : group ∈ Setting.groups) :
    PathStep.target? group = some group := by
  rw [PathStep.target_of_isPlain (Setting.isPlain_of_mem_groups h), Setting.lower_of_mem_groups h]

theorem Laid.isTable {table : SettingTable} (h : Laid table) {group : String} (hgroup : group ∈ Setting.groups)
    {value : SettingValue} (hvalue : table.lookup group = some value) : value.isTable = true := by
  obtain ⟨front, rest, htable, -⟩ := List.lookup_eq_some_iff.mp hvalue
  have hmem : (group, value) ∈ table := by
    rw [htable]
    exact List.mem_append_right _ List.mem_cons_self
  exact (h.inScope _ hmem group hgroup (.inl (target_of_mem_groups hgroup))).2

theorem layOver_key_cons {table table' : SettingTable} {name : String} {steps : List PathStep} {value : SettingValue} :
    Settings.layOver table (.key name :: steps) value = .ok table' ↔
      ∃ inner, value.layAt steps (table.lookup (Text.lower name)) = some inner ∧
        table' = put (Text.lower name) inner table := by
  have hlay : value.layAt (.key name :: steps) (some (.table table)) =
      (value.layAt steps (table.lookup (Text.lower name))).bind
        fun inner => some (.table (put (Text.lower name) inner table)) := by
    rw [layAt]
    rfl
  rw [Settings.layOver, hlay]
  cases value.layAt steps (table.lookup (Text.lower name)) with
  | none => simp
  | some inner => simp [entries, eq_comm]

/-- Where an entry of a file in scope goes: it is the table of a group and is laid over that group, or it goes to a
place that has nothing to do with the groups. -/
theorem EntryInScope.cases {key : String} {value : SettingValue} (h : EntryInScope (key, value))
    {table table' : SettingTable} (hlay : Settings.layOver table (PathStep.ofKey key) value = .ok table') :
    (∃ group ∈ Setting.groups, ∃ entries, Text.lower key = group ∧ value = .table entries ∧
      table' = put group (laidOver (table.lookup group) value) table) ∨
    ∃ name inner, table' = put (Text.lower name) inner table ∧ ∀ group ∈ Setting.groups,
      Text.lower key ≠ group ∧ Text.lower name ≠ group ∧ PathStep.target? (Text.lower name) ≠ some group := by
  obtain ⟨name, steps, hkey, hname⟩ := PathStep.exists_ofKey key
  have htarget : PathStep.target? key = some (Text.lower name) := by rw [PathStep.target?, hkey]
  have hlay' := hlay
  rw [hkey] at hlay'
  obtain ⟨inner, hinner, rfl⟩ := layOver_key_cons.mp hlay'
  by_cases hgroup : ∃ group ∈ Setting.groups, Text.lower key = group
  · left
    obtain ⟨group, hgroup, hlower⟩ := hgroup
    have hplain : PathStep.IsPlain key := by
      rw [← PathStep.IsPlain.lower_iff, hlower]
      exact Setting.isPlain_of_mem_groups hgroup
    obtain ⟨-, htable⟩ := h group hgroup (.inl (by rw [PathStep.target_of_isPlain hplain, hlower]))
    obtain ⟨entries, rfl⟩ := isTable_iff.mp htable
    rw [PathStep.ofKey_of_isPlain hplain] at hlay
    obtain ⟨inner', hinner', htable'⟩ := layOver_key_cons.mp hlay
    cases hinner'
    exact ⟨group, hgroup, entries, hlower, rfl, by rw [htable', hlower]⟩
  · right
    refine ⟨name, inner, rfl, fun group hmem => ?_⟩
    have hkey : Text.lower key ≠ group := fun hlower => hgroup ⟨group, hmem, hlower⟩
    have hnot : ¬ (PathStep.target? key = some group ∨ PathStep.target? (Text.lower key) = some group) :=
      fun htarget => hkey (h group hmem htarget).1
    have hne : Text.lower name ≠ group := fun heq => hnot (.inl (by rw [htarget, heq]))
    refine ⟨hkey, hne, fun htarget' => ?_⟩
    rcases hname with hplain | rfl
    · rw [PathStep.target_of_isPlain (PathStep.IsPlain.lower_iff.mpr hplain), Text.lower_lower] at htarget'
      exact hne (Option.some.inj htarget')
    · exact hnot (.inr htarget')

end SettingTable

namespace Setting

end Setting

/-- The settings of a file that is there and well-formed. -/
def Layer.file? (read? : String → Option SettingTable) : Layer → Option SettingTable
  | .file _ (some content) => read? content
  | _ => none

namespace Settings

theorem bind_eq_ok {α β : Type} {x : Except SettingsError α} {f : α → Except SettingsError β} {b : β} :
    (x >>= f) = .ok b ↔ ∃ a, x = .ok a ∧ f a = .ok b := by
  cases x with
  | error e =>
      refine ⟨fun h => ?_, fun ⟨a, h, _⟩ => ?_⟩ <;> cases h
  | ok a =>
      refine ⟨fun h => ⟨a, rfl, h⟩, fun ⟨a', h, hf⟩ => ?_⟩
      cases h
      exact hf

end Settings

namespace Setting

end Setting

/-- The overrides among some layers are those of settings. -/
def Layer.OverrideSettings (layers : List Layer) : Prop :=
  ∀ key value, Layer.override key value ∈ layers → ∃ k : Setting, key = k.key

end BluespecDocs
