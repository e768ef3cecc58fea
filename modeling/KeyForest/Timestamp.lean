import KeyForest.Text.Blank
import KeyForest.Text.Digits

/-!
# Instants of time

An instant is kept by its UTC calendar fields. `Timestamp.parse` reads a date and time with a zone,
`Timestamp.toText` writes it in UTC with the shortest fraction of 0, 3, 6 or 9 digits that is exact.

The written form is lenient: blanks may stand between the parts, `T` may be lower case or a space,
the zone may be `Z`, `UTC` or hours and minutes east. A second of 60 is a leap second and is kept.
Fractions are cut after nine digits.
-/
namespace KeyForest

structure Timestamp where
  year : Int
  month : Nat
  day : Nat
  hour : Nat
  minute : Nat
  second : Nat
  nano : Nat
deriving DecidableEq, Repr

namespace Timestamp

/-- The years that a date can have. -/
def firstYear : Int := -262143

def lastYear : Int := 262142

def isLeapYear (year : Int) : Bool := year % 4 == 0 && (year % 100 != 0 || year % 400 == 0)

def daysInMonth (year : Int) (month : Nat) : Nat :=
  if month == 2 then (if isLeapYear year then 29 else 28)
  else if month == 4 || month == 6 || month == 9 || month == 11 then 30
  else 31

/-- Whether the date exists and its year is within bounds. -/
def isDate (year : Int) (month day : Nat) : Bool :=
  firstYear ≤ year && year ≤ lastYear && 1 ≤ month && month ≤ 12 && 1 ≤ day &&
    day ≤ daysInMonth year month

/-- The date of the day after. -/
def nextDay (year : Int) (month day : Nat) : Int × Nat × Nat :=
  if day < daysInMonth year month then (year, month, day + 1)
  else if month < 12 then (year, month + 1, 1)
  else (year + 1, 1, 1)

/-- The date of the day before. -/
def previousDay (year : Int) (month day : Nat) : Int × Nat × Nat :=
  if 1 < day then (year, month, day - 1)
  else if 1 < month then (year, month - 1, daysInMonth year (month - 1))
  else (year - 1, 12, 31)

/-- The same instant when the fields are those of a zone `east` minutes east of UTC. -/
def toUtc (t : Timestamp) (east : Int) : Option Timestamp :=
  let minutes : Int := (t.hour * 60 + t.minute : Nat) - east
  let ofDay (date : Int × Nat × Nat) (left : Int) : Option Timestamp :=
    if isDate date.1 date.2.1 date.2.2 then
      some { t with
        year := date.1
        month := date.2.1
        day := date.2.2
        hour := left.toNat / 60
        minute := left.toNat % 60 }
    else none
  if minutes < 0 then ofDay (previousDay t.year t.month t.day) (minutes + 1440)
  else if minutes < 1440 then ofDay (t.year, t.month, t.day) minutes
  else ofDay (nextDay t.year t.month t.day) (minutes - 1440)

/-! ### Writing -/

/-- The number in decimal, filled up with zeros on the left to `width` digits. -/
def padded (width n : Nat) : String :=
  let digits := Nat.toDigits 10 n
  String.ofList (List.replicate (width - digits.length) '0' ++ digits)

/-- Years of four digits stand as they are, all others with their sign. -/
def yearText (year : Int) : String :=
  if 0 ≤ year ∧ year ≤ 9999 then padded 4 year.toNat
  else (if year < 0 then "-" else "+") ++ padded 4 year.natAbs

def fractionText (nano : Nat) : String :=
  if nano == 0 then ""
  else if nano % 1000000 == 0 then "." ++ padded 3 (nano / 1000000)
  else if nano % 1000 == 0 then "." ++ padded 6 (nano / 1000)
  else "." ++ padded 9 nano

def toText (t : Timestamp) : String :=
  yearText t.year ++ "-" ++ padded 2 t.month ++ "-" ++ padded 2 t.day ++ "T" ++
    padded 2 t.hour ++ ":" ++ padded 2 t.minute ++ ":" ++ padded 2 t.second ++
    fractionText t.nano ++ "Z"

/-! ### Reading -/

/-- Reads a number of at most `width` digits, and at least one. -/
def readNumber (width : Nat) (cs : List Char) : Option (Nat × List Char) :=
  let digits := (cs.take width).takeWhile Char.isDigit
  if digits.isEmpty then none else some (Text.digitsValue 10 digits, cs.drop digits.length)

/-- Reads a number after blanks, if it lies within bounds. -/
def readField (low high : Nat) (cs : List Char) : Option (Nat × List Char) := do
  let (n, rest) ← readNumber 2 (Text.trimLeft cs)
  if low ≤ n ∧ n ≤ high then some (n, rest) else none

/-- Reads a year: four digits at most, or any number of digits after a sign. -/
def readYear (cs : List Char) : Option (Int × List Char) :=
  match Text.trimLeft cs with
  | '-' :: rest => (readNumber rest.length rest).map fun (n, r) => (-(n : Int), r)
  | '+' :: rest => (readNumber rest.length rest).map fun (n, r) => ((n : Int), r)
  | rest => (readNumber 4 rest).map fun (n, r) => ((n : Int), r)

/-- Passes over blanks and then exactly the character `c`. -/
def readMark (c : Char) (cs : List Char) : Option (List Char) :=
  match Text.trimLeft cs with
  | d :: rest => if d = c then some rest else none
  | [] => none

/-- Reads a fraction of a second in nanoseconds; digits after the ninth do not count. -/
def readFraction : List Char → Option (Nat × List Char)
  | '.' :: rest =>
    let digits := rest.takeWhile Char.isDigit
    let kept := digits.take 9
    if digits.isEmpty then none
    else some (Text.digitsValue 10 kept * Nat.pow 10 (9 - kept.length), rest.drop digits.length)
  | rest => some (0, rest)

/-- Reads hours and minutes, with or without colons and blanks between them, as minutes. -/
def readHoursMinutes (cs : List Char) : Option (Nat × List Char) :=
  match cs with
  | a :: b :: rest =>
    if a.isDigit && b.isDigit then
      let hours := Text.digitsValue 10 [a, b]
      match rest.dropWhile fun c => c = ':' || Text.isBlank c with
      | c :: d :: rest =>
        if c.isDigit && d.isDigit && c ≤ '5' then
          some (hours * 60 + Text.digitsValue 10 [c, d], rest)
        else none
      | _ => none
    else none
  | _ => none

/-- Reads a zone as minutes east of UTC; less than a day. -/
def readZone (cs : List Char) : Option (Int × List Char) :=
  let amount (sign : Int) (rest : List Char) : Option (Int × List Char) := do
    let (minutes, rest) ← readHoursMinutes rest
    if minutes < 1440 then some (sign * minutes, rest) else none
  if (cs.take 3).map Char.toLower = ['u', 't', 'c'] then some (0, cs.drop 3)
  else match cs with
    | 'Z' :: rest => some (0, rest)
    | 'z' :: rest => some (0, rest)
    | '+' :: rest => amount 1 rest
    | '-' :: rest => amount (-1) rest
    | '−' :: rest => amount (-1) rest
    | _ => none

def parseList (cs : List Char) : Option Timestamp := do
  let (year, cs) ← readYear cs
  let cs ← readMark '-' cs
  let (month, cs) ← readField 1 12 cs
  let cs ← readMark '-' cs
  let (day, cs) ← readField 1 31 cs
  let cs ← match cs with
    | c :: rest => if c = 'T' || c = 't' || c = ' ' then some rest else none
    | [] => none
  let (hour, cs) ← readField 0 23 cs
  let cs ← readMark ':' cs
  let (minute, cs) ← readField 0 59 cs
  let cs ← readMark ':' cs
  let (second, cs) ← readField 0 60 cs
  let (nano, cs) ← readFraction cs
  let (east, cs) ← readZone (Text.trimLeft cs)
  if Text.trimLeft cs = [] ∧ isDate year month day then
    toUtc ⟨year, month, day, hour, minute, second, nano⟩ east
  else none

/-- The instant written as a date and time with a zone. -/
def parse (s : String) : Option Timestamp := parseList s.toList

end Timestamp

end KeyForest
