import BluespecDocs.Settings
import BluespecDocs.Toml

/-!
Settings from layers. Files are laid over the defaults in order, and then the overrides in order, wherever
they stand among the files. What results is read with some leniency: numbers and booleans serve as texts,
digits, booleans and rounded numbers as levels, the format's name is taken in any letter case, and a list gives a
group of settings by their order. How the text of a file is read does not matter for any of this.
-/

namespace BluespecDocs

/-- A layer of settings: a file, which may have to exist, or a single value for a path. -/
inductive Layer where
  | file (required : Bool) (content : Option String)
  | override (key : String) (value : SettingValue)
deriving Repr

inductive SettingsError where
  | missingFile | malformedFile | malformedKey | noSuchItem | wrongType | invalidValue
deriving DecidableEq, Repr

namespace SettingsError

def message : SettingsError → String
  | missingFile => "file not found"
  | malformedFile => "malformed file"
  | malformedKey => "malformed key"
  | noSuchItem => "no item at an index"
  | wrongType => "value of a wrong type"
  | invalidValue => "invalid value"

end SettingsError

namespace Settings

def toTable (settings : Settings) : SettingTable :=
  [("render", .table
    [("code_language", .str settings.render.codeLanguage), ("link_prefix", .str settings.render.linkPrefix),
     ("package_heading_level", .int settings.render.packageLevel),
     ("plain_heading_level", .int settings.render.plainLevel),
     ("parameterized_heading_level", .int settings.render.parameterizedLevel)]),
   ("output", .table [("format", .str settings.format.name)])]

/-- A table with a value laid over it at a path. -/
def layOver (base : SettingTable) (path : List PathStep) (value : SettingValue) :
    Except SettingsError SettingTable :=
  match value.layAt path (some (.table base)) with
  | some result => .ok result.entries
  | none => .error .noSuchItem

/-- A table with the settings of a file laid over it. A key at the top that is a path counts as one. -/
def layFile (base file : SettingTable) : Except SettingsError SettingTable :=
  file.foldlM (fun table (key, value) => layOver table ((PathStep.ofText? key).getD [.key key]) value) base

/-- The overrides among some layers, with the paths of their keys. -/
def overrides : List Layer → Except SettingsError (List (List PathStep × SettingValue))
  | [] => .ok []
  | .file _ _ :: rest => overrides rest
  | .override key value :: rest =>
    match PathStep.ofText? key with
    | some path => (overrides rest).map ((path, value) :: ·)
    | none => .error .malformedKey

/-- A table with the files among some layers laid over it, whose texts `read?` reads. -/
def layFiles (read? : String → Option SettingTable) (base : SettingTable) :
    List Layer → Except SettingsError SettingTable
  | [] => .ok base
  | .override _ _ :: rest => layFiles read? base rest
  | .file required none :: rest => if required then .error .missingFile else layFiles read? base rest
  | .file _ (some content) :: rest =>
    match read? content with
    | some file => do layFiles read? (← layFile base file) rest
    | none => .error .malformedFile

def textOf : SettingValue → Except SettingsError String
  | .str s => .ok s
  | .int i => .ok (toString i)
  | .float x => .ok x.display
  | .bool b => .ok (if b then "true" else "false")
  | .missing | .table _ | .list _ _ => .error .wrongType

/-- Heading levels are below this number. -/
def levelBound : Nat := Nat.pow 2 64

/-- A value as a heading level. -/
def levelOf : SettingValue → Except SettingsError Nat
  | .int i => if 0 ≤ i ∧ i < Int.ofNat levelBound then .ok i.toNat else .error .wrongType
  | .float x => .ok (x.toNatBelow levelBound)
  | .bool b => .ok (if b then 1 else 0)
  | .str s =>
    if ["true", "on", "yes"].contains (Text.lower s) then .ok 1
    else if ["false", "off", "no"].contains (Text.lower s) then .ok 0
    else match Base.decimal.natBelow? levelBound s.toList with
      | some n => .ok n
      | none => .error .wrongType
  | .missing | .table _ | .list _ _ => .error .wrongType

/-- A format by its name in any letter case. -/
def formatNamed (name : String) : Except SettingsError Format :=
  match Format.ofName? (Text.lower name) with
  | some format => .ok format
  | none => .error .invalidValue

/-- A value as a format: its name, or a table whose only key is its name. -/
def formatOf : SettingValue → Except SettingsError Format
  | .str name => formatNamed name
  | .table [(name, _)] => formatNamed name
  | _ => .error .invalidValue

/-- The setting of a group that has a name in a table and a position in a list. -/
def member? (name : String) (position : Nat) : SettingValue → Option SettingValue
  | .table entries => entries.lookup name
  | .list size items => if position < size then some ((items.lookup position).getD .missing) else none
  | _ => none

/-- Reads a setting that is there. -/
def readMember (read : SettingValue → Except SettingsError α) :
    Option SettingValue → Except SettingsError (Option α)
  | some value => (read value).map some
  | none => .ok none

/-- Reads the settings of the Markdown form. What is there is looked at before what is not. -/
def renderOf (group : SettingValue) : Except SettingsError RenderSettings := do
  let codeLanguage ← readMember textOf (member? "code_language" 0 group)
  let linkPrefix ← readMember textOf (member? "link_prefix" 1 group)
  let packageLevel ← readMember levelOf (member? "package_heading_level" 2 group)
  let plainLevel ← readMember levelOf (member? "plain_heading_level" 3 group)
  let parameterizedLevel ← readMember levelOf (member? "parameterized_heading_level" 4 group)
  match codeLanguage, linkPrefix, packageLevel, plainLevel, parameterizedLevel with
  | some codeLanguage, some linkPrefix, some packageLevel, some plainLevel, some parameterizedLevel =>
    return ⟨codeLanguage, linkPrefix, packageLevel, plainLevel, parameterizedLevel⟩
  | _, _, _, _, _ => throw .invalidValue

def outputOf (group : SettingValue) : Except SettingsError Format := do
  match ← readMember formatOf (member? "format" 0 group) with
  | some format => return format
  | none => throw .invalidValue

def ofTable (table : SettingTable) : Except SettingsError Settings := do
  let render ← renderOf ((table.lookup "render").getD .missing)
  let format ← outputOf ((table.lookup "output").getD .missing)
  return ⟨render, format⟩

/-- The settings that layers give, with files whose texts `read?` reads. A malformed path among the overrides is
found before any file is looked at. What the files give together counts as one more file, so that a key at the top
that is a path only in lower case counts as one as well. -/
def loadBy (read? : String → Option SettingTable) (layers : List Layer) : Except SettingsError Settings := do
  let overrides ← overrides layers
  let files ← layFile [] (← layFiles read? ({} : Settings).toTable layers)
  ofTable (← overrides.foldlM (fun table (path, value) => layOver table path value) files)

/-- The settings that layers give, with files in TOML. -/
def load (layers : List Layer) : Except SettingsError Settings := loadBy Toml.read? layers

end Settings

end BluespecDocs
