import KeyForest.Text.Digits
import KeyForest.Text.UnprintableTable

/-!
# Quoted text

`quoted` writes a text between double quotes for a person to read: a quote, a backslash and the
common controls have their short escapes, and every other character without a shape of its own is
written as its code point in hexadecimal, as in `\u{200b}`.
-/
namespace KeyForest.Text

/-- Whether a character is shown as it is between quotes. -/
def isPrintable (c : Char) : Bool :=
  0x20 ≤ c.toNat && !CodeRange.mem unprintableRanges c.toNat

def escapeChar (c : Char) : List Char :=
  if c = '"' then ['\\', '"']
  else if c = '\\' then ['\\', '\\']
  else if c = '\n' then ['\\', 'n']
  else if c = '\r' then ['\\', 'r']
  else if c = '\t' then ['\\', 't']
  else if c.toNat = 0 then ['\\', '0']
  else if isPrintable c then [c]
  else ['\\', 'u', '\x7b'] ++ hexDigits c.toNat ++ ['\x7d']

/-- The text between double quotes, escaped. -/
def quoted (s : String) : String :=
  String.ofList ('"' :: s.toList.flatMap escapeChar ++ ['"'])

end KeyForest.Text
