import BluespecDocs.OneToken

/-!
Package headers, imports and exports. A package header ends at its semicolon, so that what stands in the
package is found like any other declaration.
-/

namespace BluespecDocs

structure Package where
  name : Identifier
deriving DecidableEq, Repr

/-- An import of all that a package exports. -/
structure Import where
  package : Identifier
  span : Span
deriving DecidableEq, Repr

/-- An export of a name, possibly with the members of the type it names. -/
structure Export where
  name : Identifier
  withMembers : Bool
  span : Span
deriving DecidableEq, Repr

namespace Package

/-- Reads `package Name;`. -/
def rule : Rule Package := do
  Rule.keyword "package"
  let name ← Identifier.capitalized
  Rule.mark .semicolon
  return ⟨name⟩

end Package

namespace Import

/-- Reads `import Name::*;`. -/
def rule : Rule Import := do
  let (package, span) ← Rule.spanned do
    Rule.keyword "import"
    let package ← Identifier.capitalized
    Rule.mark .doubleColon
    Rule.mark .star
    Rule.mark .semicolon
    return package
  return ⟨package, span⟩

end Import

namespace Export

/-- Reads `(..)`, which asks for the members too. -/
def members : Rule Unit := Rule.between .leftParen .rightParen (Rule.mark .dotDot)

/-- Reads `export name;` or `export Name(..);`. -/
def rule : Rule Export := do
  let ((name, withMembers), span) ← Rule.spanned do
    Rule.keyword "export"
    let name ← Identifier.any
    let members ← optional members
    Rule.mark .semicolon
    return (name, members.isSome)
  return ⟨name, withMembers, span⟩

end Export

/-- A statement: it is recorded but carries no documentation. -/
inductive Statement where
  | ofImport (statement : Import)
  | ofExport (statement : Export)
deriving DecidableEq, Repr

namespace Statement

def rule : Rule Statement := (do return ofImport (← Import.rule)) <|> (do return ofExport (← Export.rule))

end Statement

end BluespecDocs
