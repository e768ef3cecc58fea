import KeyForest.Toml.Text
import KeyForest.Toml.Value

/-!
# Numbers of TOML

Underscores may stand between digits. Integers have 64 bits with sign; a float above the greatest
number is refused, one below the least becomes negative infinity.
-/
namespace KeyForest.Toml

/-! ### Digits -/

/-- Reads further digits, each after an underscore at most. -/
def readMoreDigits (isDigit : Char → Bool) : Reader (List Char)
  | '_' :: c :: rest =>
    if isDigit c then (readMoreDigits isDigit rest).map fun (ds, rest) => (c :: ds, rest) else none
  | c :: rest =>
    if isDigit c then (readMoreDigits isDigit rest).map fun (ds, rest) => (c :: ds, rest)
    else if c = '_' then none
    else some ([], c :: rest)
  | [] => some ([], [])

/-- Reads digits, at least one, with underscores between them. -/
def readDigits (isDigit : Char → Bool) : Reader (List Char)
  | c :: rest =>
    if isDigit c then (readMoreDigits isDigit rest).map fun (ds, rest) => (c :: ds, rest) else none
  | [] => none

/-- Reads decimal digits without a zero before others. -/
def readWhole : Reader (List Char)
  | '0' :: rest => some (['0'], rest)
  | cs => readDigits Char.isDigit cs

/-- Reads a sign; true for minus. -/
def readSign : List Char → Bool × List Char
  | '+' :: rest => (false, rest)
  | '-' :: rest => (true, rest)
  | cs => (false, cs)

/-! ### Numbers -/

/-- The integer, if it has 64 bits. -/
def ofInteger (n : Int) : Option Value :=
  if -0x8000000000000000 ≤ n ∧ n < 0x8000000000000000 then some (.integer n) else none

/-- Reads the digits of an integer to another base. -/
def readBased (base : Nat) (isDigit : Char → Bool) : Reader Value := fun cs => do
  let (digits, rest) ← readDigits isDigit cs
  let value ← ofInteger (Text.digitsValue base digits)
  return (value, rest)

/-- Reads an exponent, if there is one. -/
def readExponent : Reader (Option Int)
  | c :: rest =>
    if c = 'e' || c = 'E' then
      let (negative, rest) := readSign rest
      (readDigits Char.isDigit rest).map fun (digits, rest) =>
        let n : Int := Text.digitsValue 10 digits
        (some (if negative then -n else n), rest)
    else some (none, c :: rest)
  | [] => some (none, [])

def ofFloat (negative : Bool) (digits : Nat) (exponent : Int) : Option Value :=
  match Binary64.ofDecimal negative digits exponent with
  | .infinite false => none
  | number => some (.float number)

/-- Reads a decimal number: an integer, or a float if it has a fraction or an exponent. -/
def readDecimal : Reader Value := fun cs => do
  let (negative, rest) := readSign cs
  let (whole, rest) ← readWhole rest
  match rest with
  | '.' :: rest =>
    let (fraction, rest) ← readDigits Char.isDigit rest
    let (exponent, rest) ← readExponent rest
    let value ← ofFloat negative (Text.digitsValue 10 (whole ++ fraction))
      (exponent.getD 0 - fraction.length)
    return (value, rest)
  | _ =>
    let (exponent, rest) ← readExponent rest
    let n := Text.digitsValue 10 whole
    let value ← match exponent with
      | some exponent => ofFloat negative n exponent
      | none => ofInteger (if negative then -(n : Int) else n)
    return (value, rest)

/-- Reads an infinity or a number that is none. -/
def readSpecial (negative : Bool) : Reader Value
  | 'i' :: 'n' :: 'f' :: rest => some (.float (.infinite negative), rest)
  | 'n' :: 'a' :: 'n' :: rest => some (.float .nan, rest)
  | _ => none

/-- Reads a number of any form. -/
def readNumber : Reader Value
  | '0' :: 'x' :: rest => readBased 16 (fun c => (Text.hexValue? c).isSome) rest
  | '0' :: 'o' :: rest => readBased 8 (fun c => '0' ≤ c && c ≤ '7') rest
  | '0' :: 'b' :: rest => readBased 2 (fun c => c = '0' || c = '1') rest
  | cs =>
    let (negative, rest) := readSign cs
    match rest with
    | 'i' :: _ | 'n' :: _ => readSpecial negative rest
    | _ => readDecimal cs

end KeyForest.Toml
