import MiddleEnd.Decimal.Reading

/-!
Points in time as documents spell them: a date, a date and a time of day after blanks, or a date and a time
of day with its zone after a `T`.
-/
namespace MiddleEnd

namespace Timestamp

/-- Splits off a number of one or two digits. -/
def readShort? : List Char → Option (Nat × List Char)
  | [] => none
  | c :: rest => do
    let tens ← digitValue? c
    match rest with
    | [] => some (tens, [])
    | d :: after =>
      match digitValue? d with
      | some units => some (10 * tens + units, after)
      | none => some (tens, rest)

/-- Splits off one given character. -/
def readMark? (mark : Char) : List Char → Option (List Char)
  | [] => none
  | c :: rest => if c = mark then some rest else none

def isLeapYear (year : Nat) : Bool :=
  year % 4 = 0 && (year % 100 ≠ 0 || year % 400 = 0)

/-- How many days a month has; none if there is no such month. -/
def daysIn (year month : Nat) : Nat :=
  if month = 2 then (if isLeapYear year then 29 else 28)
  else if month = 4 || month = 6 || month = 9 || month = 11 then 30
  else if 1 ≤ month && month ≤ 12 then 31
  else 0

/-- Splits off a day of the calendar: a year of four digits, a month and a day. -/
def readDate? (text : List Char) : Option (List Char) := do
  let year := text.takeWhile isDigit
  if year.length ≠ 4 then none
  let rest ← readMark? '-' (text.dropWhile isDigit)
  let (month, rest) ← readShort? rest
  let rest ← readMark? '-' rest
  let (day, rest) ← readShort? rest
  if 1 ≤ day && day ≤ daysIn (readDigits year) month then some rest else none

/-- Splits off a fraction, if a point or a comma with digits after it is there. -/
def dropFraction : List Char → List Char
  | mark :: d :: rest => if (mark = '.' || mark = ',') && isDigit d then rest.dropWhile isDigit else mark :: d :: rest
  | text => text

/-- Splits off a time of day. -/
def readClock? (text : List Char) : Option (List Char) := do
  let (hour, rest) ← readShort? text
  let rest ← readMark? ':' rest
  let (minute, rest) ← readShort? rest
  let rest ← readMark? ':' rest
  let (second, rest) ← readShort? rest
  if hour < 24 && minute < 60 && second < 60 then some (dropFraction rest) else none

/-- Splits off a zone: a `Z`, or a sign with hours and minutes of two digits each, up to 24 and 60. -/
def readZone? : List Char → Option (List Char)
  | 'Z' :: rest => some rest
  | sign :: h :: hh :: ':' :: m :: mm :: rest =>
    if (sign = '+' || sign = '-') && [h, hh, m, mm].all isDigit
        && readDigits [h, hh] ≤ 24 && readDigits [m, mm] ≤ 60 then some rest
    else none
  | _ => none

end Timestamp

open Timestamp in
/-- Whether a text names a point in time. -/
def isTimestamp (text : List Char) : Bool :=
  match readDate? text with
  | none => false
  | some [] => true
  | some (mark :: rest) =>
    if mark = ' ' then readClock? (rest.dropWhile (· = ' ')) == some []
    else (mark = 'T' || mark = 't') && (readClock? rest).bind readZone? == some []

end MiddleEnd
