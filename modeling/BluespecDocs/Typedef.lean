import BluespecDocs.TypeExpr

/-!
Type definitions: aliases, enumerations, structures and tagged unions. Structures and tagged unions hold
fields and, to any depth, unnamed structures and tagged unions with a tag. Fields of a structure have
lower-case names, those of a tagged union capitalized ones.
-/

namespace BluespecDocs

/-- An element of an enumeration, with its value where one is given. -/
structure EnumElement where
  name : Identifier
  value : Option IntLiteral
deriving DecidableEq, Repr

/-- A member of a structure or tagged union. -/
inductive Member where
  | field (type : TypeExpr) (name : Identifier)
  | struct (members : List Member) (tag : Identifier)
  | union (members : List Member) (tag : Identifier)
deriving Repr

/-- What a type definition defines its name to be. -/
inductive TypedefBody where
  | synonym (type : TypeExpr)
  | enum (elements : List EnumElement)
  | struct (members : List Member)
  | taggedUnion (members : List Member)
deriving Repr

/-- A type definition. `derived` lists the classes of a `deriving` clause; an alias has none. -/
structure Typedef where
  name : Identifier
  formals : Option (List TypeFormal)
  body : TypedefBody
  derived : List Identifier
deriving Repr

namespace EnumElement

/-- Reads `Name` or `Name = literal`. -/
def rule : Rule EnumElement := do
  let name ← Identifier.capitalized
  let value ← optional do
    Rule.mark .equals
    IntLiteral.rule
  return ⟨name, value⟩

end EnumElement

namespace Member

/-- Reads `T name;`, where `fieldName` reads the name. -/
def fieldRule (fieldName : Rule Identifier) : Rule Member := do
  let type ← TypeExpr.rule
  let name ← fieldName
  Rule.mark .semicolon
  return field type name

/-- Reads one or more members in braces: fields with names as `fieldName` reads them, or what `nested`
reads. -/
def block (fieldName : Rule Identifier) (nested : Rule Member) : Rule (List Member) :=
  Rule.between .leftBrace .rightBrace (Rule.atLeastOne (fieldRule fieldName <|> nested))

/-- Reads `struct { member … }`, where `nested` reads members that are not fields. -/
def structBlock (nested : Rule Member) : Rule (List Member) := do
  Rule.keyword "struct"
  block Identifier.lowercase nested

/-- Reads `union tagged { member … }`, where `nested` reads members that are not fields. -/
def unionBlock (nested : Rule Member) : Rule (List Member) := do
  Rule.keyword "union"
  Rule.keyword "tagged"
  block Identifier.capitalized nested

/-- Reads the tag that ends a member that is not a field. -/
def tagRule : Rule Identifier := do
  let tag ← Identifier.capitalized
  Rule.mark .semicolon
  return tag

/-- Reads a member that is not a field: a tagged union or a structure, with its tag. -/
def nestedRule : Rule Member := Rule.recursive fun nested =>
  (do
    let members ← unionBlock nested
    return union members (← tagRule)) <|>
  (do
    let members ← structBlock nested
    return struct members (← tagRule))

end Member

namespace Typedef

/-- Reads the defined name with its optional formals. -/
def target : Rule (Identifier × Option (List TypeFormal)) := do
  let name ← Identifier.capitalized
  let formals ← optional TypeFormal.listRule
  return (name, formals)

/-- Reads `deriving(Class, …)`; where there is none, the list is empty. -/
def derivingRule : Rule (List Identifier) := Rule.orEmpty do
  Rule.keyword "deriving"
  Rule.parenthesized Identifier.capitalized

/-- Reads an alias, `T Name;`. -/
def synonymRule : Rule Typedef := do
  let type ← TypeExpr.rule
  let (name, formals) ← target
  Rule.mark .semicolon
  return ⟨name, formals, .synonym type, []⟩

/-- Reads a body, then the defined name and the `deriving` clause. -/
def withBody (bodyRule : Rule TypedefBody) : Rule Typedef := do
  let body ← bodyRule
  let (name, formals) ← target
  let derived ← derivingRule
  Rule.mark .semicolon
  return ⟨name, formals, body, derived⟩

/-- Reads `enum { element, … }`. -/
def enumBody : Rule TypedefBody := do
  Rule.keyword "enum"
  return .enum (← Rule.between .leftBrace .rightBrace (Rule.commaSeparated EnumElement.rule))

/-- Reads `struct { member … }`. -/
def structBody : Rule TypedefBody := do return .struct (← Member.structBlock Member.nestedRule)

/-- Reads `union tagged { member … }`. -/
def unionBody : Rule TypedefBody := do return .taggedUnion (← Member.unionBlock Member.nestedRule)

/-- Reads a type definition: an alias, an enumeration, a structure or a tagged union, tried in this
order. -/
def rule : Rule Typedef := do
  Rule.keyword "typedef"
  synonymRule <|> withBody enumBody <|> withBody structBody <|> withBody unionBody

end Typedef

end BluespecDocs
