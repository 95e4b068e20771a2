import BluespecDocs.Base

/-!
Integer literals: bare decimal digits, digits in a stated base with an optional width, and the two
patterns that fill a value with one bit. A literal keeps its digits as they are written.
-/

namespace BluespecDocs

/-- An integer literal as written. -/
inductive IntLiteral where
  | plain (digits : String)
  | based (width : Option Nat) (base : Base) (digits : String)
  | fill (ones : Bool)
deriving DecidableEq, Repr

/-- The number that digits of a base denote, the most significant digit first. -/
def Base.positional? (base : Base) (digits : List Char) : Option Nat :=
  digits.foldlM (fun n c => (base.digit? c).map (n * base.radix + ·)) 0

/-- The number that a digit string denotes, if it has a digit and the number is below `bound`. One plus
sign may stand in front. -/
def Base.natBelow? (base : Base) (bound : Nat) (text : List Char) : Option Nat :=
  let digits := match text with
    | '+' :: digits => digits
    | digits => digits
  if digits = [] then none else (base.positional? digits).filter (· < bound)

namespace IntLiteral

/-- The width in front of the apostrophe: none when nothing is written, and a number below 2^32 else. -/
def width? (text : List Char) : Option (Option Nat) :=
  if text = [] then some none else (Base.decimal.natBelow? (Nat.pow 2 32) text).map some

/-- Reads a based literal: a width, an apostrophe, a base letter, and digits of that base, with
underscores anywhere among them. -/
def ofBasedText? (text : String) : Option IntLiteral :=
  match text.toList.span (· ≠ '\x27') with
  | (width, _ :: letter :: digits) => do
    let base ← Base.ofLetter? letter
    if digits ≠ [] ∧ digits.all base.admits then
      return based (← width? width) base (String.ofList digits)
    else none
  | _ => none

/-- The base of a literal; fill patterns have none. -/
def base? : IntLiteral → Option Base
  | plain _ => some .decimal
  | based _ base _ => some base
  | fill _ => none

/-- The value of a literal, underscores left out. There is none for fill patterns, without a digit, and
from 2^128 on. -/
def value? : IntLiteral → Option Nat
  | plain digits => Base.decimal.natBelow? (Nat.pow 2 128) (digits.toList.filter (· ≠ '_'))
  | based _ base digits => base.natBelow? (Nat.pow 2 128) (digits.toList.filter (· ≠ '_'))
  | fill _ => none

/-- The written form of a literal, with a small base letter and a width without leading zeros. -/
def display : IntLiteral → String
  | plain digits => digits
  | based width base digits =>
    (match width with
      | some n => toString n
      | none => "") ++ "'" ++ String.singleton base.letter ++ digits
  | fill ones => if ones then "'1" else "'0"

end IntLiteral

end BluespecDocs
