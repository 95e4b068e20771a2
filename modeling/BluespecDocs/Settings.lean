/-!
Settings: the output format and how the Markdown form is laid out.
-/

namespace BluespecDocs

inductive Format where
  | markdown | json
deriving DecidableEq, Repr

namespace Format

def name : Format → String
  | markdown => "markdown"
  | json => "json"

def all : List Format := [markdown, json]

/-- The format of a name, letter for letter. -/
def ofName? (name : String) : Option Format := all.find? fun format => format.name == name

def unknownMessage (name : String) : String := s!"unknown output format '{name}' (expected markdown or json)"

end Format

/-- How the Markdown form is laid out. -/
structure RenderSettings where
  codeLanguage : String := "bluespec"
  linkPrefix : String := ""
  packageLevel : Nat := 1
  plainLevel : Nat := 2
  parameterizedLevel : Nat := 3
deriving DecidableEq, Repr

namespace RenderSettings

/-- The heading level of a package, of a parameterized declaration, and of any other one. -/
def headingLevel (settings : RenderSettings) (isPackage hasParameters : Bool) : Nat :=
  if isPackage then settings.packageLevel
  else if hasParameters then settings.parameterizedLevel
  else settings.plainLevel

end RenderSettings

/-- All settings; the initial values are the defaults. -/
structure Settings where
  render : RenderSettings := {}
  format : Format := .markdown
deriving DecidableEq, Repr

end BluespecDocs
