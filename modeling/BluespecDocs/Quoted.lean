import BluespecDocs.ExtendingMarks
import BluespecDocs.UnassignedCodes
import BluespecDocs.Whitespace

/-!
Values in messages: texts in quotes with escapes for what cannot be seen, lists in brackets, and optional
values with a word for their presence.
-/

namespace BluespecDocs

namespace Quoted

/-- The numbers of control and format characters and of the fillers that are drawn as nothing, from first to
last. -/
def invisible : List (Nat × Nat) :=
  [(0x0, 0x1f), (0x7f, 0x9f), (0xad, 0xad), (0x600, 0x605), (0x61c, 0x61c), (0x6dd, 0x6dd), (0x70f, 0x70f),
   (0x890, 0x891), (0x8e2, 0x8e2), (0x115f, 0x1160), (0x180e, 0x180e), (0x200b, 0x200f), (0x202a, 0x202e),
   (0x2060, 0x2064), (0x2066, 0x206f), (0x3164, 0x3164), (0xfeff, 0xfeff), (0xffa0, 0xffa0),
   (0xfff9, 0xfffb), (0x110bd, 0x110bd), (0x110cd, 0x110cd), (0x13430, 0x1343f), (0x1bca0, 0x1bca3),
   (0x1d173, 0x1d17a), (0xe0001, 0xe0001), (0xe0020, 0xe007f)]

def inRanges (n : Nat) (ranges : List (Nat × Nat)) : Bool :=
  ranges.any fun (first, last) => first ≤ n && n ≤ last

/-- Whether a character cannot be seen on its own: white space other than the blank, an invisible character,
a mark on the character before it, or no character at all. -/
def isUnseen (c : Char) : Bool :=
  (Text.isWhitespace c && c != ' ') || inRanges c.toNat invisible || inRanges c.toNat Text.extendingMarks ||
  inRanges c.toNat Text.unassignedBasic || inRanges c.toNat Text.unassignedSupplementary

/-- How a character is written inside quotes. -/
def escape (c : Char) : String :=
  match c with
  | '"' => "\\\""
  | '\\' => "\\\\"
  | '\n' => "\\n"
  | '\r' => "\\r"
  | '\t' => "\\t"
  | '\x00' => "\\0"
  | c =>
    if isUnseen c then "\\u\x7b" ++ String.ofList (Nat.toDigits 16 c.toNat) ++ "\x7d"
    else String.singleton c

def string (s : String) : String := "\"" ++ String.join (s.toList.map escape) ++ "\""

def strings (ss : List String) : String := "[" ++ ", ".intercalate (ss.map string) ++ "]"

def stringOrNone : Option String → String
  | some s => "Some(" ++ string s ++ ")"
  | none => "None"

end Quoted

end BluespecDocs
