/-!
Lines of a text. `segments` cuts at every separator and loses nothing else; `lines` takes newlines for the
ends of lines, so it leaves out a carriage return before a newline and has no empty line after the last
one.
-/

namespace BluespecDocs

namespace Text

/-- Puts a character in front of the first line of some lines, or starts a line with it. -/
def consFirst (c : Char) : List (List Char) → List (List Char)
  | [] => [[c]]
  | first :: others => (c :: first) :: others

/-- The pieces of a text between the occurrences of a separator. -/
def segments (separator : Char) : List Char → List (List Char)
  | [] => [[]]
  | c :: cs => if c = separator then [] :: segments separator cs else consFirst c (segments separator cs)

/-- The lines of a text. A line ends with a newline, or with a carriage return and a newline; the last
one may end with the text. -/
def lines : List Char → List (List Char)
  | [] => []
  | '\r' :: '\n' :: cs => [] :: lines cs
  | c :: cs => if c = '\n' then [] :: lines cs else consFirst c (lines cs)

/-- Lines written after each other with newlines between them. -/
def joinLines (ls : List (List Char)) : List Char := List.intercalate ['\n'] ls

end Text

end BluespecDocs
