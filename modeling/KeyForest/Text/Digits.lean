/-!
# Digits

The values of digits in bases of up to sixteen.
-/
namespace KeyForest.Text

/-- The value of a hexadecimal digit, in either letter case. -/
def hexValue? (c : Char) : Option Nat :=
  if c.isDigit then some (c.toNat - '0'.toNat)
  else if 'a' ≤ c ∧ c ≤ 'f' then some (c.toNat - 'a'.toNat + 10)
  else if 'A' ≤ c ∧ c ≤ 'F' then some (c.toNat - 'A'.toNat + 10)
  else none

/-- The value of a run of digits of a base. -/
def digitsValue (base : Nat) (cs : List Char) : Nat :=
  cs.foldl (fun n c => base * n + (hexValue? c).getD 0) 0

/-- The value of decimal digits, of which there is at least one, if it has at most 64 bits. -/
def count? (digits : List Char) : Option Nat :=
  if digits.isEmpty || !digits.all Char.isDigit then none
  else
    let n := digitsValue 10 digits
    if n < 0x10000000000000000 then some n else none

/-- The hexadecimal digits of `n` in lower case, without leading zeros. -/
def hexDigits (n : Nat) : List Char := Nat.toDigits 16 n

@[simp] theorem digitsValue_nil (base : Nat) : digitsValue base [] = 0 := rfl

theorem digitsValue_concat (base : Nat) (cs : List Char) (c : Char) :
    digitsValue base (cs ++ [c]) = base * digitsValue base cs + (hexValue? c).getD 0 := by
  simp [digitsValue]

end KeyForest.Text
