import BluespecDocs.Identifier
import BluespecDocs.IntLiteral
import BluespecDocs.Rule

/-!
Rules of one token: identifiers of either case and integer literals. Read on their own, these rules tell
why and where a text is not what they expect.
-/

namespace BluespecDocs

/-- Why a rule of one token does not apply. -/
inductive Mismatch where
  | unexpectedToken | unexpectedEnd
  | wrongCase (expected : LetterCase) (found : Identifier)
  | malformedLiteral (text : String)
  | notDecimal (found : IntLiteral)
deriving DecidableEq, Repr

namespace LetterCase

/-- How a case is called in messages. -/
def title : LetterCase → String
  | capitalized => "Capitalized"
  | lowercase => "Lowercase"

end LetterCase

namespace Mismatch

def message : Mismatch → String
  | unexpectedToken => "unexpected token"
  | unexpectedEnd => "unexpected end"
  | wrongCase expected found => s!"expected {expected.title} identifier, found `{found.name}`"
  | malformedLiteral text => s!"malformed literal `{text}`"
  | notDecimal found => s!"expected decimal literal, found `{found.display}`"

end Mismatch

/-- What one token is taken for, or why it cannot be. -/
abbrev TokenReader (α : Type) := Token → Except Mismatch α

namespace TokenReader

/-- A token reader as a rule; why it does not apply is forgotten. -/
def rule (read : TokenReader α) : Rule α := Rule.token fun t => (read t).toOption

/-- Reads the first token and hands back the others. A failure tells the span of the token at fault. -/
def first (read : TokenReader α) : List Token → Except (Mismatch × Span) (α × List Token)
  | t :: rest =>
    match read t with
    | .ok value => .ok (value, rest)
    | .error mismatch => .error (mismatch, t.span)
  | [] => .error (.unexpectedEnd, ⟨0, 0⟩)

/-- Reads a list of exactly one token. -/
def only (read : TokenReader α) (tokens : List Token) : Except (Mismatch × Span) α :=
  match read.first tokens with
  | .ok (value, []) => .ok value
  | .ok (_, extra :: _) => .error (.unexpectedToken, extra.span)
  | .error e => .error e

end TokenReader

namespace Identifier

/-- A word of either case. -/
def ofToken : TokenReader Identifier := fun t =>
  match t.kind, ofName? t.text with
  | .word, some ident => .ok ident
  | _, _ => .error .unexpectedToken

/-- A word of the given case. -/
def ofTokenIn (wanted : LetterCase) : TokenReader Identifier := fun t => do
  let ident ← ofToken t
  if ident.letterCase = wanted then return ident else throw (.wrongCase wanted ident)

def any : Rule Identifier := TokenReader.rule ofToken

def capitalized : Rule Identifier := TokenReader.rule (ofTokenIn .capitalized)

def lowercase : Rule Identifier := TokenReader.rule (ofTokenIn .lowercase)

end Identifier

namespace IntLiteral

/-- A literal in any base. -/
def ofToken : TokenReader IntLiteral := fun t =>
  match t.kind with
  | .based =>
    match ofBasedText? t.text with
    | some literal => .ok literal
    | none => .error (.malformedLiteral t.text)
  | .number => .ok (.plain t.text)
  | .fill => .ok (.fill (t.text = "'1"))
  | _ => .error .unexpectedToken

/-- A literal in base ten. -/
def decimalOfToken : TokenReader IntLiteral := fun t => do
  let literal ← ofToken t
  if literal.base? = some .decimal then return literal else throw (.notDecimal literal)

def rule : Rule IntLiteral := TokenReader.rule ofToken

end IntLiteral

end BluespecDocs
