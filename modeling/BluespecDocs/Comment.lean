import BluespecDocs.Lines
import BluespecDocs.Token
import BluespecDocs.Whitespace

/-!
The text of comments and the documentation waiting for a declaration. The body of a comment is its text
without the marks that make it a comment. Documentation comments pile up until a declaration takes them;
an ordinary comment throws away what waits.
-/

namespace BluespecDocs

namespace Comment

def isBlank (c : Char) : Bool := c == ' ' || c == '\t'

/-- A text without one space or tab at its start. -/
def dropBlank : List Char → List Char
  | c :: cs => if isBlank c then cs else c :: cs
  | [] => []

/-- A text without the closing mark of a block comment: a final slash, the stars before it, of which
there must be one, and the blanks before those. -/
def withoutClose (cs : List Char) : List Char :=
  match cs.reverse with
  | '/' :: '*' :: before => ((before.dropWhile (· == '*')).dropWhile isBlank).reverse
  | _ => cs

/-- The first line of a documentation block without the opening mark, the white space before it, and one
blank after it. -/
def withoutOpen (line : List Char) : List Char :=
  match line.dropWhile Text.isWhitespace with
  | '/' :: '*' :: '*' :: body => dropBlank body
  | _ => line

/-- A further line of a block without the star that leads it, the blanks before the star, and one blank
after it. -/
def withoutGutter (line : List Char) : List Char :=
  match line.dropWhile isBlank with
  | '*' :: body => dropBlank body
  | _ => line

/-- A line of a line comment without three leading slashes, the blanks before them, and one blank after
them. -/
def withoutSlashes (line : List Char) : List Char :=
  match line.dropWhile isBlank with
  | '/' :: '/' :: '/' :: body => dropBlank body
  | _ => line

/-- Lines without the empty ones at the start and at the end. -/
def trimEmpty (ls : List (List Char)) : List (List Char) :=
  ((ls.dropWhile List.isEmpty).reverse.dropWhile List.isEmpty).reverse

/-- The lines of a block comment without their marks. -/
def blockLines (cs : List Char) : List (List Char) :=
  match Text.lines (withoutClose cs) with
  | first :: others => withoutOpen first :: others.map withoutGutter
  | [] => []

/-- The body of a block comment: its lines without marks and trailing white space, from the first to the
last that is not empty. -/
def blockBody (cs : List Char) : List Char :=
  Text.joinLines (trimEmpty ((blockLines cs).map Text.trimEnd))

/-- The body of a line comment: its lines without marks and trailing white space. A comment has several
lines when some end in a backslash. -/
def lineBody (cs : List Char) : List Char :=
  let unmarked := Text.joinLines ((Text.segments '\n' cs).map withoutSlashes)
  Text.joinLines ((Text.lines unmarked).map Text.trimEnd)

end Comment

namespace CommentKind

/-- The body of a comment, given its text. -/
def body (kind : CommentKind) (text : String) : String :=
  match kind with
  | docBlock | block => String.ofList (Comment.blockBody text.toList)
  | docLine | line => String.ofList (Comment.lineBody text.toList)

end CommentKind

/-- Documentation that waits for a declaration: the bodies of documentation comments, each after a
newline. -/
structure PendingDoc where
  text : String
deriving DecidableEq, Repr

namespace PendingDoc

def empty : PendingDoc := ⟨""⟩

def isEmpty (pending : PendingDoc) : Bool := pending.text.isEmpty

/-- Takes note of a comment. Documentation adds its body; an ordinary comment throws away what waits. -/
def observe (pending : PendingDoc) (kind : CommentKind) (text : String) : PendingDoc :=
  if kind.isDoc then ⟨pending.text ++ "\n" ++ kind.body text⟩ else empty

def clear (_pending : PendingDoc) : PendingDoc := empty

/-- What waits, for the declaration that takes it. -/
def taken? (pending : PendingDoc) : Option String := if pending.isEmpty then none else some pending.text

end PendingDoc

end BluespecDocs
