import BluespecDocs.Reader
import BluespecDocs.Token

/-!
Grammar rules. A rule reads tokens from the front of a list.
-/

namespace BluespecDocs

/-- A grammar rule for values of type `α`. -/
abbrev Rule (α : Type) := Reader Token α

namespace Rule

export Reader (upTo many orEmpty)

/-- Reads one token, if `read` makes something of it. -/
def token (read : Token → Option α) : Rule α := Reader.element read

/-- Reads one token that passes a test. -/
def tokenThat (test : Token → Bool) : Rule Unit := token fun t => if test t then some () else none

def keyword (name : String) : Rule Unit := tokenThat (Token.isWord name)

def mark (m : Mark) : Rule Unit := tokenThat (Token.isMark m)

/-- Reads what `item` reads as often as it applies, at least once. -/
def atLeastOne (item : Rule α) : Rule (List α) := do
  let first ← item
  let others ← many item
  return first :: others

/-- Reads one or more items with a comma between neighbours. -/
def commaSeparated (item : Rule α) : Rule (List α) := Reader.separated (mark .comma) item

/-- Reads an item between two marks. -/
def between (opening closing : Mark) (item : Rule α) : Rule α := do
  mark opening
  let value ← item
  mark closing
  return value

/-- Reads one or more items in parentheses, with commas between them. -/
def parenthesized (item : Rule α) : Rule (List α) :=
  between .leftParen .rightParen (commaSeparated item)

/-- The span of the tokens read between two moments: from the first to the last of them, or that of the
next token when none has been read. -/
def spanRead (before after : List Token) : Span :=
  match before with
  | first :: _ =>
    ⟨first.span.start, ((before.take (before.length - after.length)).getLastD first).span.stop⟩
  | [] => ⟨0, 0⟩

/-- Reads what `rule` reads and tells the span of it. -/
def spanned (rule : Rule α) : Rule (α × Span) := fun before => do
  let (value, after) ← rule before
  return ((value, spanRead before after), after)

/-- A rule that uses itself, at most `n` levels deep. -/
def nestedTo (step : Rule α → Rule α) : Nat → Rule α
  | 0 => failure
  | n + 1 => step (nestedTo step n)

/-- The rule that `step` defines from itself. A rule that reads a token before it uses itself nests at
most once per token, so the count of tokens is bound enough. -/
def recursive (step : Rule α → Rule α) : Rule α := fun tokens => nestedTo step tokens.length tokens

/-- What a rule makes of a whole token list, with nothing left over. -/
def complete? (rule : Rule α) (tokens : List Token) : Option α :=
  match rule tokens with
  | some (value, []) => some value
  | _ => none

end Rule

end BluespecDocs
