import KeyForest.Toml.Text

/-!
# Dates and times of TOML

A moment is a date, a time of day, or both with or without a zone. It is kept as its text, which is
written in one way: with a `T` before the time, with the fraction of a second cut after nine digits
and without zeros at its end, and with a plus sign before a zone of zero.

`Moment.read` reads a moment where it stands in a document, and `Moment.ofText?` a text that is one
moment and nothing else.
-/
namespace KeyForest.Toml

/-- Reads two digits whose value lies within bounds. -/
def readPair (low high : Nat) : Reader (List Char)
  | a :: b :: rest =>
    let n := Text.digitsValue 10 [a, b]
    if a.isDigit && b.isDigit && low ≤ n && n ≤ high then some ([a, b], rest) else none
  | _ => none

def readMark (mark : Char) : List Char → Option (List Char)
  | c :: rest => if c = mark then some rest else none
  | [] => none

namespace Moment

def daysInMonth (year month : Nat) : Nat :=
  if month = 2 then (if year % 4 = 0 ∧ (year % 100 ≠ 0 ∨ year % 400 = 0) then 29 else 28)
  else if month = 4 ∨ month = 6 ∨ month = 9 ∨ month = 11 then 30
  else 31

/-- Reads the rest of a date after its year and the mark behind it. -/
def readDate (year : List Char) : Reader (List Char) := fun cs => do
  let (month, rest) ← readPair 1 12 cs
  let rest ← readMark '-' rest
  let (day, rest) ← readPair 1 31 rest
  let last := daysInMonth (Text.digitsValue 10 year) (Text.digitsValue 10 month)
  if Text.digitsValue 10 day ≤ last then
    some (year ++ ['-'] ++ month ++ ['-'] ++ day, rest)
  else none

/-- Reads a fraction of a second, if there is one; zeros at its end are dropped. -/
def readFraction : List Char → List Char × List Char
  | '.' :: rest =>
    let digits := rest.takeWhile Char.isDigit
    if digits.isEmpty then ([], '.' :: rest)
    else
      let kept := ((digits.take 9).reverse.dropWhile (· = '0')).reverse
      (if kept.isEmpty then [] else '.' :: kept, rest.drop digits.length)
  | cs => ([], cs)

/-- Reads the rest of a time after its hour and the mark behind it. -/
def readTime (hour : List Char) : Reader (List Char) := fun cs => do
  let (minute, rest) ← readPair 0 59 cs
  let rest ← readMark ':' rest
  let (second, rest) ← readPair 0 60 rest
  let (fraction, rest) := readFraction rest
  return (hour ++ [':'] ++ minute ++ [':'] ++ second ++ fraction, rest)

/-- Reads a zone, if there is one. -/
def readZone : Reader (List Char)
  | c :: rest =>
    if c = 'Z' || c = 'z' then some (['Z'], rest)
    else if c = '+' || c = '-' then do
      let (hour, rest) ← readPair 0 23 rest
      let rest ← readMark ':' rest
      let (minute, rest) ← readPair 0 59 rest
      let isZero := hour = ['0', '0'] && minute = ['0', '0']
      return ((if isZero then '+' else c) :: hour ++ [':'] ++ minute, rest)
    else some ([], c :: rest)
  | [] => some ([], [])

/-- Reads the time and zone that may follow a date. -/
def readTimeOfDay (date : List Char) : Reader (List Char) := fun cs =>
  match cs with
  | c :: rest =>
    if c = 'T' || c = 't' || c = ' ' then
      match readPair 0 23 rest with
      | some (hour, ':' :: rest) => do
        let (time, rest) ← readTime hour rest
        let (zone, rest) ← readZone rest
        return (date ++ ['T'] ++ time ++ zone, rest)
      | _ => some (date, cs)
    else some (date, cs)
  | [] => some (date, cs)

/-- Whether the text begins as a moment does: with four digits and a dash or an hour and a colon. -/
def begins (cs : List Char) : Bool :=
  match cs with
  | a :: b :: ':' :: _ => (readPair 0 23 [a, b]).isSome
  | a :: b :: c :: d :: '-' :: _ => [a, b, c, d].all Char.isDigit
  | _ => false

/-- Reads a moment. -/
def read : Reader (List Char) := fun cs =>
  if begins cs then
    match cs with
    | a :: b :: ':' :: rest => readTime [a, b] rest
    | _ => do
      let (date, rest) ← readDate (cs.take 4) (cs.drop 5)
      readTimeOfDay date rest
  else none

/-- The moment that a text stands for. -/
def ofText? (text : String) : Option String :=
  match read text.toList with
  | some (moment, []) => some (String.ofList moment)
  | _ => none

end Moment

end KeyForest.Toml
