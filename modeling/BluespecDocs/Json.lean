/-!
JSON values and their text, laid out with one item or field to a line and an indentation of two spaces
a level.
-/

namespace BluespecDocs

/-- A JSON value; numbers are natural. The fields of an object keep their order. -/
inductive Json where
  | null
  | bool (value : Bool)
  | nat (value : Nat)
  | str (value : String)
  | list (items : List Json)
  | object (fields : List (String × Json))
deriving Repr

namespace Json

/-- A value that may be missing. -/
def orNull (encode : α → Json) : Option α → Json
  | some a => encode a
  | none => null

def listOf (encode : α → Json) (as : List α) : Json := list (as.map encode)

/-- How a character is written inside quotes: quotes, backslashes and control characters are escaped. -/
def escape (c : Char) : List Char :=
  match c with
  | '"' => ['\\', '"']
  | '\\' => ['\\', '\\']
  | '\x08' => ['\\', 'b']
  | '\x0c' => ['\\', 'f']
  | '\n' => ['\\', 'n']
  | '\r' => ['\\', 'r']
  | '\t' => ['\\', 't']
  | c =>
    if c.toNat < 0x20 then
      ['\\', 'u', '0', '0', Nat.digitChar (c.toNat / 16), Nat.digitChar (c.toNat % 16)]
    else [c]

/-- A string in quotes. -/
def quote (s : String) : List Char := '"' :: s.toList.flatMap escape ++ ['"']

/-- A newline and the indentation of a level. -/
def newline (level : Nat) : List Char := '\n' :: List.replicate (2 * level) ' '

/-- Written items between an opening and a closing bracket of a level: each on a line of its own, one
level deeper. -/
def enclose (opening closing : Char) (level : Nat) (items : List (List Char)) : List Char :=
  match items with
  | [] => [opening, closing]
  | _ :: _ =>
    opening :: newline (level + 1) ++ List.intercalate (',' :: newline (level + 1)) items ++
    newline level ++ [closing]

mutual

/-- The text of a value that stands at a level of indentation. -/
def write (level : Nat) : Json → List Char
  | null => ['n', 'u', 'l', 'l']
  | bool true => ['t', 'r', 'u', 'e']
  | bool false => ['f', 'a', 'l', 's', 'e']
  | nat n => Nat.toDigits 10 n
  | str s => quote s
  | list items => enclose '[' ']' level (writeItems (level + 1) items)
  | object fields => enclose '\x7b' '\x7d' level (writeFields (level + 1) fields)

def writeItems (level : Nat) : List Json → List (List Char)
  | [] => []
  | item :: items => write level item :: writeItems level items

def writeFields (level : Nat) : List (String × Json) → List (List Char)
  | [] => []
  | (key, value) :: fields => (quote key ++ ':' :: ' ' :: write level value) :: writeFields level fields

end

/-- The text of a value. -/
def render (value : Json) : String := String.ofList (write 0 value)

end Json

end BluespecDocs
