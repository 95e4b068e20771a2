import BluespecDocs.Block

/-!
Function definitions. The body of a function may define further functions, so a closing word inside it
may belong to one of them. Body tokens are read as a nested definition where one is complete, and else
one at a time.
-/

namespace BluespecDocs

/-- The header of a function definition. A parameter has a type and possibly a name. -/
structure FunctionHeader where
  name : Identifier
  result : Option TypeExpr
  params : List (TypeExpr × Option Identifier)
  provisos : List TypeExpr
deriving Repr

/-- A function definition: its header, its place, and the definitions directly inside it. -/
structure Function extends FunctionHeader where
  span : Span
  nested : List Function
deriving Repr

namespace FunctionHeader

/-- Reads the result type and the name, or the name alone. -/
def resultAndName : Rule (Option TypeExpr × Identifier) :=
  (do
    let result ← TypeExpr.rule
    return (some result, ← Identifier.lowercase)) <|>
  (do return (none, ← Identifier.lowercase))

/-- Reads a parameter: a type and possibly a name. -/
def paramRule : Rule (TypeExpr × Option Identifier) := do
  let type ← TypeExpr.rule
  return (type, ← optional Identifier.lowercase)

/-- Reads a parameter list in parentheses, possibly empty; where there is none, the list is empty. -/
def paramsRule : Rule (List (TypeExpr × Option Identifier)) :=
  Rule.orEmpty (Rule.between .leftParen .rightParen (Rule.orEmpty (Rule.commaSeparated paramRule)))

/-- Reads a header through its semicolon. -/
def rule : Rule FunctionHeader := do
  Rule.keyword "function"
  let (result, name) ← resultAndName
  let params ← paramsRule
  let provisos ← TypeExpr.provisosRule
  Rule.mark .semicolon
  return ⟨name, result, params, provisos⟩

end FunctionHeader

namespace Function

/-- Reads one token of a body that is not the closing word. -/
def filler : Rule Unit := Rule.tokenThat fun t => !t.isWord "endfunction"

/-- Reads a body and keeps the definitions in it, which `nested` reads. -/
def body (nested : Rule Function) : Rule (List Function) := do
  let items ← Rule.many ((some <$> nested) <|> (do filler; return none))
  return items.filterMap id

def rule : Rule Function := Rule.recursive fun nested => do
  let ((header, inner), span) ← Rule.spanned do
    let header ← FunctionHeader.rule
    let inner ← body nested
    Rule.closed "endfunction" Identifier.lowercase
    return (header, inner)
  return ⟨header, span, inner⟩

end Function

end BluespecDocs
