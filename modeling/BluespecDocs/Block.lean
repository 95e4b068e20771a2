import BluespecDocs.TypeExpr

/-!
Interfaces, type classes, instances and modules. After its header each of them runs to the first
occurrence of its closing word, whatever stands between; the closing word may carry a label.
-/

namespace BluespecDocs

structure Interface where
  name : Identifier
  formals : Option (List TypeFormal)
deriving DecidableEq, Repr

structure Typeclass where
  name : Identifier
  formals : List TypeFormal
  provisos : List TypeExpr
  dependencies : List TypeDependency
deriving Repr

/-- The header of an instance of a type class. -/
structure Instance where
  name : Identifier
  args : List TypeExpr
  provisos : List TypeExpr
deriving Repr

/-- The header of a module, with the type of its context where one is given. -/
structure Module where
  name : Identifier
  context : Option TypeExpr
deriving Repr

namespace Rule

/-- Skips to the first word `closing`, which is left unread. -/
def skipTo (closing : String) : Rule Unit := fun tokens =>
  some ((), tokens.dropWhile fun t => !t.isWord closing)

/-- Reads the word `closing` and the label after it, a colon and a name, where there is one. -/
def closed (closing : String) (label : Rule Identifier) : Rule Unit := do
  keyword closing
  let _ ← optional do
    mark .colon
    label

/-- Reads a header and then all up to and with the first word `closing` and its label. -/
def block (header : Rule α) (closing : String) (label : Rule Identifier) : Rule α := do
  let value ← header
  skipTo closing
  closed closing label
  return value

end Rule

namespace Interface

/-- Reads `interface Name #(formals);`, where the formals may be missing. -/
def header : Rule Interface := do
  Rule.keyword "interface"
  let name ← Identifier.capitalized
  let formals ← optional TypeFormal.listRule
  Rule.mark .semicolon
  return ⟨name, formals⟩

def rule : Rule Interface := Rule.block header "endinterface" Identifier.capitalized

end Interface

namespace Typeclass

/-- Reads `typeclass Name #(formals) provisos dependencies;`, where the last two may be missing. -/
def header : Rule Typeclass := do
  Rule.keyword "typeclass"
  let name ← Identifier.capitalized
  let formals ← TypeFormal.listRule
  let provisos ← TypeExpr.provisosRule
  let dependencies ← Rule.orEmpty TypeDependency.listRule
  Rule.mark .semicolon
  return ⟨name, formals, provisos, dependencies⟩

def rule : Rule Typeclass := Rule.block header "endtypeclass" Identifier.capitalized

end Typeclass

namespace Instance

/-- Reads `instance Name #(types) provisos;`, where the provisos may be missing. -/
def header : Rule Instance := do
  Rule.keyword "instance"
  let name ← Identifier.capitalized
  let args ← TypeExpr.typeArgs TypeExpr.rule
  let provisos ← TypeExpr.provisosRule
  Rule.mark .semicolon
  return ⟨name, args, provisos⟩

def rule : Rule Instance := Rule.block header "endinstance" Identifier.capitalized

end Instance

namespace Module

/-- Reads `module [T] name`, where the bracketed context may be missing. -/
def header : Rule Module := do
  Rule.keyword "module"
  let context ← optional (Rule.between .leftBracket .rightBracket TypeExpr.rule)
  let name ← Identifier.lowercase
  return ⟨name, context⟩

def rule : Rule Module := Rule.block header "endmodule" Identifier.lowercase

end Module

end BluespecDocs
