/-!
The number bases in which an integer literal can be written, with the letter that announces each and
the digits it admits.
-/

namespace BluespecDocs

inductive Base where
  | decimal | hex | octal | binary
deriving DecidableEq, Repr

namespace Base

/-- The base that a letter announces, in either case. -/
def ofLetter? : Char → Option Base
  | 'd' | 'D' => some decimal
  | 'h' | 'H' => some hex
  | 'o' | 'O' => some octal
  | 'b' | 'B' => some binary
  | _ => none

/-- The letter of a base, in lower case. -/
def letter : Base → Char
  | decimal => 'd'
  | hex => 'h'
  | octal => 'o'
  | binary => 'b'

def radix : Base → Nat
  | decimal => 10
  | hex => 16
  | octal => 8
  | binary => 2

end Base

/-- The value of a digit, with letters of either case for ten to fifteen. Only ASCII digits count. -/
def digitValue? (c : Char) : Option Nat :=
  if '0' ≤ c ∧ c ≤ '9' then some (c.toNat - '0'.toNat)
  else if 'a' ≤ c ∧ c ≤ 'f' then some (c.toNat - 'a'.toNat + 10)
  else if 'A' ≤ c ∧ c ≤ 'F' then some (c.toNat - 'A'.toNat + 10)
  else none

namespace Base

/-- The value of a character as a digit of a base. -/
def digit? (base : Base) (c : Char) : Option Nat := (digitValue? c).filter (· < base.radix)

/-- Whether a character may stand among the digits of a base: a digit or an underscore. -/
def admits (base : Base) (c : Char) : Bool := c == '_' || (base.digit? c).isSome

/-- A number in base ten with zeros in front, up to a width. -/
def padded (width n : Nat) : List Char :=
  let digits := Nat.toDigits 10 n
  List.replicate (width - digits.length) '0' ++ digits

end Base

end BluespecDocs
