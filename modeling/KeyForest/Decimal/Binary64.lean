/-!
# Binary floating-point numbers of 64 bits

`Binary64.ofDecimal` rounds a decimal to the nearest number, an exact half to the one with even
mantissa. `Binary64.shortest` gives the fewest decimal digits that lie nearer to a number than to
its neighbours, of two equally near decimals the upper one. `Binary64.toText` writes them in
positional notation with at least one digit after the point. All arithmetic is exact.
-/
namespace KeyForest

inductive Binary64 where
  /-- The number mantissa · 2 ^ exponent; mantissas are below 2 ^ 53, exponents from -1074 on. -/
  | finite (negative : Bool) (mantissa : Nat) (exponent : Int)
  | infinite (negative : Bool)
  | nan
deriving DecidableEq, Repr

namespace Binary64

/-- The quotient rounded to the nearest natural number, a half to the even one. -/
def roundDiv (num den : Nat) : Nat :=
  let quotient := num / den
  let twice := 2 * (num % den)
  if twice < den then quotient
  else if den < twice then quotient + 1
  else if quotient % 2 = 0 then quotient else quotient + 1

/-- The fraction num / den divided by 2 ^ exponent, as a fraction. -/
def scaled (num den : Nat) (exponent : Int) : Nat × Nat :=
  if 0 ≤ exponent then (num, den <<< exponent.toNat) else (num <<< (-exponent).toNat, den)

/-- The greatest exponent of two whose power is not above the fraction num / den. -/
def binaryOrder (num den : Nat) : Int :=
  let guess : Int := (num.log2 : Int) - den.log2
  let (n, d) := scaled num den guess
  if d ≤ n then guess else guess - 1

/-- The number nearest to the fraction num / den, which is above zero. -/
def ofFraction (negative : Bool) (num den : Nat) : Binary64 :=
  let exponent := max (binaryOrder num den - 52) (-1074)
  let (n, d) := scaled num den exponent
  let mantissa := roundDiv n d
  let (mantissa, exponent) :=
    if mantissa = 1 <<< 53 then (1 <<< 52, exponent + 1) else (mantissa, exponent)
  if 971 < exponent then infinite negative else finite negative mantissa exponent

/-- The number nearest to digits · 10 ^ exponent. -/
def ofDecimal (negative : Bool) (digits : Nat) (exponent : Int) : Binary64 :=
  let size : Int := (Nat.toDigits 10 digits).length + exponent
  if digits = 0 ∨ size < -330 then finite negative 0 (-1074)
  else if 310 < size then infinite negative
  else if 0 ≤ exponent then ofFraction negative (digits * Nat.pow 10 exponent.toNat) 1
  else ofFraction negative digits (Nat.pow 10 (-exponent).toNat)

/-! ### Shortest digits -/

/-- A positive number with the bounds between which decimals are read back as it, all three over one
denominator; `closed` says whether the bounds themselves are. -/
structure Interval where
  low : Nat
  value : Nat
  high : Nat
  den : Nat
  closed : Bool

/-- The bounds half-way to the neighbours. -/
def interval (mantissa : Nat) (exponent : Int) : Interval :=
  let lowGap := if mantissa = 1 <<< 52 ∧ -1074 < exponent then 1 else 2
  let up := 1 <<< exponent.toNat
  let den := 4 <<< (-exponent).toNat
  { low := (4 * mantissa - lowGap) * up
    value := 4 * mantissa * up
    high := (4 * mantissa + 2) * up
    den
    closed := mantissa % 2 = 0 }

/-- Whether digits · 10 ^ exponent lies within the bounds. -/
def Interval.holds (i : Interval) (digits : Nat) (exponent : Int) : Bool :=
  let x := digits * i.den * Nat.pow 10 exponent.toNat
  let scale := Nat.pow 10 (-exponent).toNat
  if i.closed then i.low * scale ≤ x && x ≤ i.high * scale
  else i.low * scale < x && x < i.high * scale

/-- The point nearest to the number on the grid of multiples of 10 ^ exponent, if it or its
neighbour lies within the bounds. Half-way between two points the upper one is nearest. -/
def Interval.onGrid (i : Interval) (exponent : Int) : Option Nat :=
  let num := i.value * Nat.pow 10 (-exponent).toNat
  let den := i.den * Nat.pow 10 exponent.toNat
  let down := num / den
  let near := (2 * num + den) / (2 * den)
  let far := if near = down then down + 1 else down
  if i.holds near exponent then some near
  else if i.holds far exponent then some far
  else none

/-- Tries the grids from 10 ^ exponent on down, `steps` of them. -/
def Interval.firstGrid (i : Interval) : (steps : Nat) → Int → Nat × Int
  | 0, exponent => (0, exponent)
  | steps + 1, exponent =>
    match i.onGrid exponent with
    | some digits => if digits = 0 then firstGrid i steps (exponent - 1) else (digits, exponent)
    | none => firstGrid i steps (exponent - 1)

/-- Moves zeros at the end of the digits to the exponent. -/
def stripZeros : (steps : Nat) → Nat → Int → Nat × Int
  | steps + 1, digits, exponent =>
    if digits % 10 = 0 then stripZeros steps (digits / 10) (exponent + 1) else (digits, exponent)
  | 0, digits, exponent => (digits, exponent)

/-- The shortest decimal that is read back as the positive number. -/
def shortest (mantissa : Nat) (exponent : Int) : Nat × Int :=
  let i := interval mantissa exponent
  let order : Int := (Nat.toDigits 10 (i.value / i.den)).length
  let (digits, place) := i.firstGrid 800 order
  stripZeros 20 digits place

/-- A decimal in positional notation, with at least one digit on each side of the point. -/
def positional (digits : Nat) (exponent : Int) : String :=
  let cs := Nat.toDigits 10 digits
  if 0 ≤ exponent then String.ofList (cs ++ List.replicate exponent.toNat '0' ++ ['.', '0'])
  else
    let places := (-exponent).toNat
    let cs := List.replicate (places + 1 - cs.length) '0' ++ cs
    String.ofList (cs.take (cs.length - places) ++ ['.'] ++ cs.drop (cs.length - places))

def toText : Binary64 → String
  | finite negative mantissa exponent =>
    let (digits, place) := if mantissa = 0 then (0, 0) else shortest mantissa exponent
    (if negative then "-" else "") ++ positional digits place
  | infinite negative => if negative then "-inf" else "inf"
  | nan => "NaN"

end Binary64

end KeyForest
