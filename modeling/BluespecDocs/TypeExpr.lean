import BluespecDocs.OneToken

/-!
Type expressions, the formal parameters of parameterized types, and the provisos and dependencies that
constrain them. A type is a function type, a name with an optional package and optional arguments, or a
number; the word `function` never names a type.
-/

namespace BluespecDocs

/-- A type expression. The parameter names of a function type are not kept. -/
inductive TypeExpr where
  | named (package : Option Identifier) (name : Identifier) (args : List TypeExpr)
  | function (result : TypeExpr) (name : Identifier) (params : List TypeExpr)
  | numeric (literal : IntLiteral)
deriving Repr

/-- A formal parameter of a type, which stands for a type or for a number. -/
structure TypeFormal where
  numeric : Bool
  name : Identifier
deriving DecidableEq, Repr

/-- A statement that some type parameters fix others. -/
structure TypeDependency where
  determining : List Identifier
  determined : List Identifier
deriving DecidableEq, Repr

namespace TypeExpr

def ofName (name : Identifier) : TypeExpr := named none name []

mutual

def display : TypeExpr → String
  | named package name args =>
    (match package with
      | some p => p.name ++ "::"
      | none => "") ++ name.name ++
    (match displayAll args with
      | [] => ""
      | shown => "#(" ++ ", ".intercalate shown ++ ")")
  | function result name params =>
    "function " ++ display result ++ " " ++ name.name ++ "(" ++ ", ".intercalate (displayAll params) ++ ")"
  | numeric literal => literal.display

def displayAll : List TypeExpr → List String
  | [] => []
  | t :: ts => display t :: displayAll ts

end

/-- Reads `function T name(T name, …)`, where `type` reads a type. -/
def functionType (type : Rule TypeExpr) : Rule TypeExpr := do
  Rule.keyword "function"
  let result ← type
  let name ← Identifier.lowercase
  let params ← Rule.parenthesized do
    let param ← type
    let _ ← Identifier.lowercase
    return param
  return function result name params

/-- Reads the package in front of a type name. -/
def qualifier : Rule Identifier := do
  let package ← Identifier.any
  Rule.mark .doubleColon
  return package

/-- Reads the name of a type: any identifier but the word `function`. -/
def typeName : Rule Identifier := do
  let name ← Identifier.any
  if name.name = "function" then failure else return name

/-- Reads `#(T, …)`, where `type` reads a type. -/
def typeArgs (type : Rule TypeExpr) : Rule (List TypeExpr) := do
  Rule.mark .hash
  Rule.parenthesized type

/-- Reads a name with an optional package and optional arguments, where `type` reads a type. -/
def namedType (type : Rule TypeExpr) : Rule TypeExpr := do
  let package ← optional qualifier
  let name ← typeName
  let args ← Rule.orEmpty (typeArgs type)
  return named package name args

/-- Reads a number as a type. -/
def numericType : Rule TypeExpr := do return numeric (← IntLiteral.rule)

/-- Reads a type: a function type, a named type or a number, tried in this order. -/
def rule : Rule TypeExpr := Rule.recursive fun type => functionType type <|> namedType type <|> numericType

/-- Reads `provisos(T, …)`; where there is none, the list is empty. -/
def provisosRule : Rule (List TypeExpr) := Rule.orEmpty do
  Rule.keyword "provisos"
  Rule.parenthesized rule

end TypeExpr

namespace TypeFormal

/-- Reads `type name` or `numeric type name`. -/
def rule : Rule TypeFormal := do
  let numeric ← optional (Rule.keyword "numeric")
  Rule.keyword "type"
  let name ← Identifier.lowercase
  return ⟨numeric.isSome, name⟩

/-- Reads `#(formal, …)`. -/
def listRule : Rule (List TypeFormal) := do
  Rule.mark .hash
  Rule.parenthesized rule

end TypeFormal

namespace TypeDependency

/-- Reads one side of a dependency: a type variable, or several in parentheses. -/
def side : Rule (List Identifier) :=
  (do return [← Identifier.lowercase]) <|> Rule.parenthesized Identifier.lowercase

/-- Reads `side determines side`. -/
def rule : Rule TypeDependency := do
  let determining ← side
  Rule.keyword "determines"
  let determined ← side
  return ⟨determining, determined⟩

/-- Reads `dependencies(dependency, …)`. -/
def listRule : Rule (List TypeDependency) := do
  Rule.keyword "dependencies"
  Rule.parenthesized rule

end TypeDependency

end BluespecDocs
