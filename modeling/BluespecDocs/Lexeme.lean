import BluespecDocs.Base
import BluespecDocs.Token

/-!
Lexical classes. Each class is given by its reach: how many characters its longest lexeme takes at the
start of a text, or 0 where the text starts with none. No lexeme is empty, so 0 is free for that.
-/

namespace BluespecDocs

namespace Lexeme

def isWordStart (c : Char) : Bool := c.isAlpha || c == '_'

def isWordPart (c : Char) : Bool := c.isAlphanum || c == '_' || c == '$'

/-- One more than `n`, unless `n` is 0: the reach of a sign followed by a part that must not be empty. -/
def signed (n : Nat) : Nat := if n = 0 then 0 else n + 1

/-- A letter or underscore, then letters, digits, underscores and dollar signs. -/
def word : List Char → Nat
  | c :: cs => if isWordStart c then 1 + (cs.takeWhile isWordPart).length else 0
  | [] => 0

/-- A dollar sign and at least one character of a word. -/
def systemWord : List Char → Nat
  | '$' :: cs => signed (cs.takeWhile isWordPart).length
  | _ => 0

/-- A backquote and a word. -/
def directive : List Char → Nat
  | '\x60' :: cs => signed (word cs)
  | _ => 0

/-- A digit, then digits and underscores. -/
def number : List Char → Nat
  | c :: cs => if c.isDigit then 1 + (cs.takeWhile fun d => d.isDigit || d == '_').length else 0
  | [] => 0

/-- An apostrophe, a base letter and at least one digit of that base or underscore. -/
def baseAndDigits : List Char → Nat
  | '\x27' :: letter :: cs =>
    match Base.ofLetter? letter with
    | some base => match (cs.takeWhile base.admits).length with
      | 0 => 0
      | n + 1 => n + 3
    | none => 0
  | _ => 0

/-- A width in digits, which may be missing, then base and digits. -/
def based (cs : List Char) : Nat :=
  let width := (cs.takeWhile Char.isDigit).length
  match baseAndDigits (cs.drop width) with
  | 0 => 0
  | n + 1 => width + (n + 1)

/-- An apostrophe and a 0 or a 1. -/
def fill : List Char → Nat
  | '\x27' :: '0' :: _ | '\x27' :: '1' :: _ => 2
  | _ => 0

/-- What may follow an opening quote: characters other than quote, backslash and newline, and a
backslash with any character after it but a newline. -/
def stringBody : List Char → Nat
  | '\\' :: c :: cs => if c = '\n' then 0 else 2 + stringBody cs
  | c :: cs => if c = '"' ∨ c = '\\' ∨ c = '\n' then 0 else 1 + stringBody cs
  | [] => 0

/-- A quote, a string body and a quote. -/
def string : List Char → Nat
  | '"' :: cs => if (cs.drop (stringBody cs)).head? = some '"' then stringBody cs + 2 else 0
  | _ => 0

/-- The rest of a line. A newline right after a backslash does not end it. -/
def lineTail : List Char → Nat
  | '\\' :: '\n' :: cs => 2 + lineTail cs
  | c :: cs => if c = '\n' then 0 else 1 + lineTail cs
  | [] => 0

/-- Two slashes and the rest of the line. -/
def lineComment : List Char → Nat
  | '/' :: '/' :: cs => 2 + lineTail cs
  | _ => 0

/-- Three slashes and the rest of the line, or the three slashes alone before a fourth one. -/
def docLineComment : List Char → Nat
  | '/' :: '/' :: '/' :: '/' :: _ => 3
  | '/' :: '/' :: '/' :: cs => 3 + lineTail cs
  | _ => 0

/-- How many characters stand before the first closing mark of a block comment. -/
def beforeClose? : List Char → Option Nat
  | '*' :: '/' :: _ => some 0
  | _ :: cs => (beforeClose? cs).map (· + 1)
  | [] => none

/-- Whether the text after the opening mark of a block comment makes it documentation: it goes on with
a star that is not part of the closing mark. -/
def opensDoc : List Char → Bool
  | '*' :: '/' :: _ => false
  | '*' :: _ => true
  | _ => false

/-- The opening mark and all up to and with the first closing mark, in the wanted style. -/
def blockComment (doc : Bool) : List Char → Nat
  | '/' :: '*' :: cs =>
    match beforeClose? cs with
    | some n => if opensDoc cs = doc then n + 4 else 0
    | none => 0
  | _ => 0

def exactly (text : String) (cs : List Char) : Nat :=
  if text.toList.isPrefixOf cs then text.toList.length else 0

end Lexeme

/-- A lexical class: the kind of its tokens and the reach of its longest lexeme. -/
structure LexicalClass where
  kind : TokenKind
  reach : List Char → Nat

namespace LexicalClass

/-- All lexical classes. Where two reach equally far the earlier one counts. -/
def all : List LexicalClass :=
  [⟨.comment .docLine, Lexeme.docLineComment⟩, ⟨.comment .line, Lexeme.lineComment⟩,
   ⟨.comment .docBlock, Lexeme.blockComment true⟩, ⟨.comment .block, Lexeme.blockComment false⟩,
   ⟨.word, Lexeme.word⟩, ⟨.systemWord, Lexeme.systemWord⟩, ⟨.directive, Lexeme.directive⟩,
   ⟨.number, Lexeme.number⟩, ⟨.based, Lexeme.based⟩, ⟨.fill, Lexeme.fill⟩, ⟨.string, Lexeme.string⟩] ++
  Mark.all.map fun mark => ⟨.mark mark, Lexeme.exactly mark.text⟩

/-- The kind and reach of the class that reaches furthest into a text, the earliest of those; reach 0
when no class applies. -/
def furthest (cs : List Char) : List LexicalClass → TokenKind × Nat
  | [] => (.other, 0)
  | cls :: rest =>
    let best := furthest cs rest
    let reach := cls.reach cs
    -- not `<`: an earlier class wins a tie
    if best.2 ≤ reach then (cls.kind, reach) else best

end LexicalClass

namespace Lexeme

/-- How far a token reaches where no class applies: over an opening quote with the string body after
it, over the opening mark of a block comment, and else over one character. -/
def stray : List Char → Nat
  | '"' :: cs => 1 + stringBody cs
  | '/' :: '*' :: _ => 2
  | _ => 1

/-- Kind and length of the token at the start of a text. -/
def first (cs : List Char) : TokenKind × Nat :=
  match LexicalClass.furthest cs LexicalClass.all with
  | (kind, n + 1) => (kind, n + 1)
  | (_, 0) => (.other, stray cs)

end Lexeme

namespace Token

/-- The characters that separate tokens and belong to none: space, tab, carriage return, newline and
form feed. -/
def isLayout (c : Char) : Bool :=
  c == ' ' || c == '\t' || c == '\r' || c == '\n' || c == '\x0c'

/-- The tokens of a text that starts at byte offset `pos`: layout is skipped, and a token is cut at
every other place. -/
def lexFrom (pos : Nat) : List Char → List Token
  | [] => []
  | c :: cs =>
    if isLayout c then lexFrom (pos + c.utf8Size) cs
    else
      let found := Lexeme.first (c :: cs)
      let text := c :: cs.take (found.2 - 1)
      let stop := pos + Text.byteSize text
      ⟨found.1, String.ofList text, ⟨pos, stop⟩⟩ :: lexFrom stop (cs.drop (found.2 - 1))
termination_by cs => cs.length
decreasing_by all_goals simp +arith

def lex (source : String) : List Token := lexFrom 0 source.toList

end Token

end BluespecDocs
