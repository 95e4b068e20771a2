import BluespecDocs.Span

/-!
Tokens. Keywords have no kind of their own: they are words told apart by their text, so that a longer
word never starts with a keyword. Comments are tokens too, in four kinds.
-/

namespace BluespecDocs

/-- The four kinds of comment: documentation and ordinary ones, each as a block or to the end of a line. -/
inductive CommentKind where
  | docBlock | docLine | block | line
deriving DecidableEq, Repr

namespace CommentKind

/-- Whether comments of a kind document the declaration after them. -/
def isDoc : CommentKind → Bool
  | docBlock | docLine => true
  | block | line => false

end CommentKind

/-- The punctuation marks that the grammar knows. -/
inductive Mark where
  | doubleColon | colon | semicolon | comma | hash | leftParen | rightParen | leftBracket | rightBracket
  | leftBrace | rightBrace | equals | dotDot | dot | star
deriving DecidableEq, Repr

namespace Mark

def text : Mark → String
  | doubleColon => "::"
  | colon => ":"
  | semicolon => ";"
  | comma => ","
  | hash => "#"
  | leftParen => "("
  | rightParen => ")"
  | leftBracket => "["
  | rightBracket => "]"
  | leftBrace => "\x7b"
  | rightBrace => "\x7d"
  | equals => "="
  | dotDot => ".."
  | dot => "."
  | star => "*"

def all : List Mark :=
  [doubleColon, colon, semicolon, comma, hash, leftParen, rightParen, leftBracket, rightBracket,
   leftBrace, rightBrace, equals, dotDot, dot, star]

end Mark

/-- What a token is: a comment, a name, a literal, a mark, or `other` for text that has no lexical class. -/
inductive TokenKind where
  | comment (kind : CommentKind)
  | word | systemWord | directive
  | number | based | fill | string
  | mark (mark : Mark)
  | other
deriving DecidableEq, Repr

/-- A token with the text it was cut from and the place of that text in the source. -/
structure Token where
  kind : TokenKind
  text : String
  span : Span
deriving DecidableEq, Repr

namespace Token

/-- Whether a token is the word `name`, which is how keywords are recognised. -/
def isWord (name : String) (token : Token) : Bool := token.kind == .word && token.text == name

def isMark (mark : Mark) (token : Token) : Bool := token.kind == .mark mark

/-- The kind of comment a token is. -/
def commentKind? (token : Token) : Option CommentKind :=
  match token.kind with
  | .comment kind => some kind
  | _ => none

end Token

end BluespecDocs
