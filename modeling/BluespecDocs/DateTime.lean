import BluespecDocs.Base
import BluespecDocs.Reader

/-!
Dates and times of day. A text gives a date, a time, or both with a letter `T` or a blank between them; with
both there may be an offset from universal time. The written form is the same for all texts that mean the
same date, time and offset. Where a text is read leniently, the end of a day counts as a time of the day and as an
offset.
-/

namespace BluespecDocs

structure CalendarDate where
  year : Nat
  month : Nat
  day : Nat
deriving DecidableEq, Repr

structure ClockTime where
  hour : Nat
  minute : Nat
  second : Nat
  nanosecond : Nat
deriving DecidableEq, Repr

/-- How far a clock is from universal time. -/
inductive ClockOffset where
  | universal
  | minutes (ahead : Int)
deriving DecidableEq, Repr

/-- A date, a time of day, or both. -/
structure DateTime where
  date : Option CalendarDate
  time : Option ClockTime
  offset : Option ClockOffset
deriving DecidableEq, Repr

namespace DateTime

def digit : Reader Char Nat := Reader.element Base.decimal.digit?

def twoDigits : Reader Char Nat := do return 10 * (← digit) + (← digit)

end DateTime

namespace CalendarDate

open Base (padded)
open DateTime (twoDigits)
open Reader (exactly require)

def isLeap (year : Nat) : Bool := year % 4 == 0 && (year % 100 != 0 || year % 400 == 0)

def daysIn (year month : Nat) : Nat :=
  if month = 2 then (if isLeap year then 29 else 28)
  else if [4, 6, 9, 11].contains month then 30 else 31

/-- Whether there is such a day. -/
def isValid (date : CalendarDate) : Bool :=
  1 ≤ date.month && date.month ≤ 12 && 1 ≤ date.day && date.day ≤ daysIn date.year date.month

/-- Reads a date: the year in four digits, month and day in two. -/
def read : Reader Char CalendarDate := do
  let century ← twoDigits
  let year := 100 * century + (← twoDigits)
  exactly ['-']
  let month ← twoDigits
  exactly ['-']
  let date : CalendarDate := ⟨year, month, ← twoDigits⟩
  require date.isValid
  return date

def written (date : CalendarDate) : List Char :=
  padded 4 date.year ++ '-' :: padded 2 date.month ++ '-' :: padded 2 date.day

end CalendarDate

namespace ClockTime

open Base (padded)
open DateTime (twoDigits)
open Reader (exactly require)

/-- The nanoseconds that digits after a point give; those after the ninth do not count. -/
def nanoseconds? (digits : List Char) : Option Nat := do
  let kept ← (digits.take 9).mapM Base.decimal.digit?
  return kept.foldl (fun n d => 10 * n + d) 0 * Nat.pow 10 (9 - kept.length)

/-- Reads a fraction of a second. -/
def fraction : Reader Char Nat := do
  exactly ['.']
  let digits ← Reader.takeWhile Char.isDigit
  require !digits.isEmpty
  nanoseconds? digits

/-- Whether there is such a time. A leap second counts. -/
def isValid (lenient : Bool) (time : ClockTime) : Bool :=
  time.hour ≤ (if lenient then 24 else 23) && time.minute ≤ 59 && time.second ≤ 60

/-- Reads a time: hour, minute and second in two digits each, and possibly a fraction. -/
def read (lenient : Bool) : Reader Char ClockTime := do
  let hour ← twoDigits
  exactly [':']
  let minute ← twoDigits
  exactly [':']
  let second ← twoDigits
  let time : ClockTime := ⟨hour, minute, second, (← optional fraction).getD 0⟩
  require (time.isValid lenient)
  return time

/-- The written form of a time. A fraction has no zeros at its end. -/
def written (time : ClockTime) : List Char :=
  padded 2 time.hour ++ ':' :: padded 2 time.minute ++ ':' :: padded 2 time.second ++
  if time.nanosecond = 0 then []
  else '.' :: ((padded 9 time.nanosecond).reverse.dropWhile (· == '0')).reverse

end ClockTime

namespace ClockOffset

open Base (padded)
open DateTime (twoDigits)
open Reader (exactly require)

/-- Reads hours and minutes of an offset. -/
def readMinutes (lenient : Bool) : Reader Char Nat := do
  let hours ← twoDigits
  exactly [':']
  let minutes ← twoDigits
  require (if lenient then 60 * hours + minutes ≤ 24 * 60 else hours ≤ 23 && minutes ≤ 59)
  return 60 * hours + minutes

def read (lenient : Bool) : Reader Char ClockOffset := do
  match ← Reader.elementThat ['Z', 'z', '+', '-'].contains with
  | '+' => return .minutes (Int.ofNat (← readMinutes lenient))
  | '-' => return .minutes (-Int.ofNat (← readMinutes lenient))
  | _ => return .universal

def written : ClockOffset → List Char
  | universal => ['Z']
  | minutes ahead =>
    (if ahead < 0 then '-' else '+') ::
      padded 2 (ahead.natAbs / 60) ++ ':' :: padded 2 (ahead.natAbs % 60)

end ClockOffset

namespace DateTime

/-- Reads a date with what may follow it, or a time of day. -/
def read (lenient : Bool) : Reader Char DateTime :=
  (do
    let date ← CalendarDate.read
    let rest ← optional do
      let _ ← Reader.elementThat ['T', 't', ' '].contains
      return (← ClockTime.read lenient, ← optional (ClockOffset.read lenient))
    return ⟨some date, rest.map Prod.fst, rest.bind Prod.snd⟩) <|>
  (do return ⟨none, some (← ClockTime.read lenient), none⟩)

/-- What a whole text means. -/
def ofText? (text : String) : Option DateTime :=
  match read true text.toList with
  | some (result, []) => some result
  | _ => none

def display (dateTime : DateTime) : String :=
  let date := (dateTime.date.map CalendarDate.written).getD []
  let time := (dateTime.time.map ClockTime.written).getD []
  let offset := (dateTime.offset.map ClockOffset.written).getD []
  String.ofList (date ++ (if date ≠ [] ∧ time ≠ [] then ['T'] else []) ++ time ++ offset)

end DateTime

end BluespecDocs
