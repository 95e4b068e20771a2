import BluespecDocs.Encoding
import BluespecDocs.Settings

/-!
The written forms of a document. In Markdown each declaration has a heading, its documentation and its
source text between fences; a package has a heading and its documentation only. The other form is JSON.
-/

namespace BluespecDocs

namespace Declaration

def isPackage (d : Declaration) : Bool := d.construct.packageName?.isSome

/-- The heading of a declaration. A level below 1 counts as 1. Headings other than those of packages link
to the line of the declaration. -/
def heading (settings : RenderSettings) (path : String) (d : Declaration) : String :=
  let level := settings.headingLevel d.isPackage d.hasParameters
  let hashes := String.ofList (List.replicate (max level 1) '#')
  let name := d.construct.name.name
  if d.isPackage then s!"{hashes} {name}\n"
  else s!"{hashes} [{name}]({settings.linkPrefix}{path}#L{d.line})\n"

/-- The documentation of a declaration. It starts with a newline, which sets it off from the heading. -/
def docLines (d : Declaration) : String :=
  match d.doc with
  | some doc => doc ++ "\n"
  | none => ""

/-- The source text of a declaration between fences. -/
def fenced (settings : RenderSettings) (piece : String) : String :=
  "```" ++ settings.codeLanguage ++ "\n" ++ piece ++ "\n```\n"

/-- The entry of a declaration, with an empty line at its end. -/
def markdown? (settings : RenderSettings) (path source : String) (d : Declaration) : Option String :=
  if d.isPackage then some (d.heading settings path ++ d.docLines ++ "\n")
  else do
    let piece ← d.span.slice? source
    return d.heading settings path ++ d.docLines ++ fenced settings piece ++ "\n"

end Declaration

namespace Document

/-- The entries of all declarations. There is no text when a declaration spans no piece of the source. -/
def markdown? (settings : RenderSettings) (source : String) (doc : Document) : Option String :=
  (doc.declarations.mapM (Declaration.markdown? settings doc.path source)).map String.join

/-- The text of a document in the format of the settings. -/
def render? (settings : Settings) (source : String) (doc : Document) : Option String :=
  match settings.format with
  | .markdown => doc.markdown? settings.render source
  | .json => (doc.toJson? source).map Json.render

/-- The text of the document of a source text. -/
def publish? (settings : Settings) (source path : String) : Option String :=
  (ofSource source path).render? settings source

end Document

end BluespecDocs
