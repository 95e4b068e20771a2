import BluespecDocs.IntLiteral
import BluespecDocs.Whitespace

/-!
Paths to settings. A path starts with a key; after it, a dot leads to a key of a table and brackets lead to
an item of a list, whose index may count from the end.
-/

namespace BluespecDocs

/-- A step of a path: to the value of a key, or to an item of a list. -/
inductive PathStep where
  | key (name : String)
  | item (index : Int)
deriving DecidableEq, Repr

namespace PathStep

/-- Whether a character may stand in a key of a path. -/
def isKeyChar (c : Char) : Bool := c.isAlphanum || c == '_' || c == '-' || c == ' '

/-- Whether a character may stand around an index in brackets. -/
def isBlank (c : Char) : Bool := c == ' ' || c == '\t'

/-- The number that digits of base ten denote, of which there has to be one. -/
def natural? (digits : List Char) : Option Nat :=
  if digits = [] then none else Base.decimal.positional? digits

/-- The index that stands between brackets, a number of 64 bits. -/
def index? (inside : List Char) : Option Int := do
  let bound := Nat.pow 2 63
  match Text.dropEndWhile isBlank (inside.dropWhile isBlank) with
  | '-' :: digits => return -Int.ofNat (← (natural? digits).filter (· ≤ bound))
  | digits => return Int.ofNat (← (natural? digits).filter (· < bound))

/-- The steps that a text stands for, each with its dot or brackets. -/
def ofChars? : List Char → Option (List PathStep)
  | [] => some []
  | '.' :: cs =>
    let name := cs.takeWhile isKeyChar
    if name = [] then none
    else (ofChars? (cs.drop name.length)).map (key (String.ofList name) :: ·)
  | '[' :: cs =>
    let inside := cs.takeWhile (· ≠ ']')
    if inside.length < cs.length then do
      let index ← index? inside
      return item index :: (← ofChars? (cs.drop (inside.length + 1)))
    else none
  | _ => none
termination_by cs => cs.length
decreasing_by all_goals simp +arith

/-- The steps of a path. The first one is to a key. -/
def ofText? (path : String) : Option (List PathStep) := ofChars? ('.' :: path.toList)

end PathStep

end BluespecDocs
