import KeyForest.Text.Digits
import KeyForest.Validity

/-!
# Appearance of a row

Colors are written `#RRGGBB`. The font decorations of several filters accumulate by `Font.resolve`:
flags add up, and of the font families the first one counts.
-/
namespace KeyForest

structure Color where
  red : UInt8
  green : UInt8
  blue : UInt8
deriving DecidableEq, Repr

namespace Color

def hexDigit (n : Nat) : Char := ((Nat.toDigits 16 n).headD '0').toUpper

/-- Two hexadecimal digits in upper case. -/
def channelText (channel : UInt8) : List Char :=
  [hexDigit (channel.toNat / 16), hexDigit (channel.toNat % 16)]

def toText (color : Color) : String :=
  String.ofList ('#' :: channelText color.red ++ channelText color.green ++ channelText color.blue)

/-- The color that six hexadecimal digits name. -/
def ofDigits? : List Char → Option Color
  | [a, b, c, d, e, f] => do
    let a ← Text.hexValue? a
    let b ← Text.hexValue? b
    let c ← Text.hexValue? c
    let d ← Text.hexValue? d
    let e ← Text.hexValue? e
    let f ← Text.hexValue? f
    return ⟨.ofNat (16 * a + b), .ofNat (16 * c + d), .ofNat (16 * e + f)⟩
  | _ => none

/-- Reads a color: six hexadecimal digits, after any number of number signs. -/
def parse (s : String) : Except NameError Color :=
  match ofDigits? ((Text.trimList s.toList).dropWhile (· == '#')) with
  | some color => .ok color
  | none => .error (.color s)

end Color

/-- Font decorations. -/
structure Font where
  bold : Bool := false
  italic : Bool := false
  strikeout : Bool := false
  family : Option String := none
deriving DecidableEq, Repr

namespace Font

/-- The font without decorations. -/
def plain : Font := {}

def isPlain (font : Font) : Bool := font == plain

/-- Both decorations together; the family of the first goes before that of the second. -/
def resolve (font other : Font) : Font where
  bold := font.bold || other.bold
  italic := font.italic || other.italic
  strikeout := font.strikeout || other.strikeout
  family := font.family <|> other.family

end Font

end KeyForest
