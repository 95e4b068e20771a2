import BluespecDocs.Base

/-!
Numbers of double precision. A decimal number is taken for the number of double precision that is nearest to it, or
for the one with an even mantissa of two that are equally near. A number is written with the fewest digits that are
taken for it, and without an exponent.
-/

namespace BluespecDocs

/-- A number of double precision. A finite one is a mantissa times a power of two. -/
inductive Binary64 where
  | nan
  | infinite (negative : Bool)
  | finite (negative : Bool) (mantissa : Nat) (exponent : Int)
deriving DecidableEq, Repr

namespace Binary64

/-- The exponent of the numbers next to zero. -/
def leastExponent : Int := -1074

def greatestExponent : Int := 971

/-- The least mantissa of a number that has not the least exponent. Mantissas are below the double of it. -/
def leastMantissa : Nat := Nat.pow 2 52

/-- The natural number nearest to a quotient, the even one of two. -/
def nearestEven (numerator denominator : Nat) : Nat :=
  let quotient := numerator / denominator
  let twice := 2 * (numerator % denominator)
  if twice < denominator ∨ (twice = denominator ∧ quotient % 2 = 0) then quotient else quotient + 1

/-- The exponent with which the mantissa of a quotient has its full length, if that is possible. -/
def exponentOf (numerator denominator : Nat) : Int :=
  let length := Int.ofNat numerator.log2 - Int.ofNat denominator.log2
  let reached := denominator * Nat.pow 2 length.toNat ≤ numerator * Nat.pow 2 (-length).toNat
  max leastExponent (length - if reached then 52 else 53)

/-- The number of double precision nearest to a quotient of natural numbers above zero. -/
def ofQuotient (negative : Bool) (numerator denominator : Nat) : Binary64 :=
  let exponent := exponentOf numerator denominator
  let mantissa := nearestEven (numerator * Nat.pow 2 (-exponent).toNat) (denominator * Nat.pow 2 exponent.toNat)
  let (mantissa, exponent) :=
    if mantissa < 2 * leastMantissa then (mantissa, exponent) else (leastMantissa, exponent + 1)
  if exponent ≤ greatestExponent then finite negative mantissa exponent else infinite negative

/-- The number of double precision nearest to some units of a power of ten. -/
def ofDecimal (negative : Bool) (units : Nat) (exponent : Int) : Binary64 :=
  -- Powers of ten out of all proportion are not worked out.
  let length := Int.ofNat (Nat.toDigits 10 units).length + exponent
  if units = 0 ∨ length < -330 then finite negative 0 leastExponent
  else if 310 < length then infinite negative
  else ofQuotient negative (units * Nat.pow 10 exponent.toNat) (Nat.pow 10 (-exponent).toNat)

/-- The units of a power of ten that are taken for a number above zero, if there are any: the nearest ones, and the
greater ones of two. -/
def unitsAt? (mantissa : Nat) (exponent place : Int) : Option Nat :=
  -- The number and the ends of what is taken for it, in quarters of the last bit. Below a power of two the numbers
  -- are twice as dense as above it.
  let value := 4 * mantissa
  let low := value - if mantissa = leastMantissa then 1 else 2
  let high := value + 2
  let bits := Nat.pow 2 (exponent - 2).toNat * Nat.pow 10 (-place).toNat
  let unit := Nat.pow 2 (2 - exponent).toNat * Nat.pow 10 place.toNat
  let isTaken (units : Nat) : Bool :=
    if mantissa % 2 = 0 then low * bits ≤ units * unit && units * unit ≤ high * bits
    else low * bits < units * unit && units * unit < high * bits
  let below := value * bits / unit
  let nearest := if 2 * (value * bits % unit) < unit then [below, below + 1] else [below + 1, below]
  nearest.find? isTaken

/-- The fewest digits that are taken for a number above zero, as units of a power of ten. -/
def shortest (mantissa : Nat) (exponent : Int) : Nat × Int :=
  let places := (List.range 700).map fun n => 310 - Int.ofNat n
  (places.findSome? fun place => (unitsAt? mantissa exponent place).map (·, place)).getD (0, 0)

/-- Units of a power of ten in digits. -/
def written (units : Nat) (place : Int) : List Char :=
  let digits := Base.padded ((-place).toNat + 1) (units * Nat.pow 10 place.toNat)
  let whole := digits.length - (-place).toNat
  if 0 ≤ place then digits else digits.take whole ++ '.' :: digits.drop whole

def display : Binary64 → String
  | nan => "NaN"
  | infinite negative => if negative then "-inf" else "inf"
  | finite negative mantissa exponent =>
    let digits := if mantissa = 0 then ['0'] else
      let (units, place) := shortest mantissa exponent
      written units place
    String.ofList (if negative then '-' :: digits else digits)

/-- The nearest natural number below a bound above zero, the greater one of two. -/
def toNatBelow (bound : Nat) : Binary64 → Nat
  | nan | infinite true | finite true _ _ => 0
  | infinite false => bound - 1
  | finite false mantissa exponent =>
    let half := Nat.pow 2 (-exponent).toNat
    min (bound - 1) ((2 * (mantissa * Nat.pow 2 exponent.toNat) + half) / (2 * half))

end Binary64

end BluespecDocs
