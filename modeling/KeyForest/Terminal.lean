import KeyForest.Filter.Appearance

/-!
# Styled text for terminals

A styled text is written with its codes before it and a reset after it. A reset inside of the text
is followed by the codes again, so that the style holds to the end. A terminal that shows fewer
colors gets the nearest of the sixteen named ones.
-/
namespace KeyForest

/-- What a terminal can show. -/
structure Terminal where
  /-- Whether styles are shown at all. -/
  isStyled : Bool
  /-- Whether every color is shown, and not only the named ones. -/
  isFullColor : Bool
deriving DecidableEq, Repr

/-- A color with a code of its own, which is the code for text in it. -/
structure NamedColor where
  code : Nat
  color : Color

namespace NamedColor

def black : NamedColor := ⟨30, 0, 0, 0⟩

def red : NamedColor := ⟨31, 205, 0, 0⟩

def green : NamedColor := ⟨32, 0, 205, 0⟩

def yellow : NamedColor := ⟨33, 205, 205, 0⟩

def cyan : NamedColor := ⟨36, 0, 205, 205⟩

/-- The named colors besides black, the dark ones first. -/
def others : List NamedColor :=
  [red, green, yellow, ⟨34, 0, 0, 238⟩, ⟨35, 205, 0, 205⟩, cyan, ⟨37, 229, 229, 229⟩,
   ⟨90, 127, 127, 127⟩, ⟨91, 255, 0, 0⟩, ⟨92, 0, 255, 0⟩, ⟨93, 255, 255, 0⟩, ⟨94, 92, 92, 255⟩,
   ⟨95, 255, 0, 255⟩, ⟨96, 0, 255, 255⟩, ⟨97, 255, 255, 255⟩]

/-- The square of the distance of two colors. -/
def distance (a b : Color) : Nat :=
  let square (x y : UInt8) : Nat :=
    let gap := ((x.toNat : Int) - y.toNat).natAbs
    gap * gap
  square a.red b.red + square a.green b.green + square a.blue b.blue

/-- The named color that is nearest to a color, the first of several. -/
def nearest (color : Color) : NamedColor :=
  let nearer (best named : NamedColor) : NamedColor :=
    if distance named.color color < distance best.color color then named else best
  others.foldl nearer black

end NamedColor

/-- A color for text or for the ground behind it. -/
inductive Ink where
  | named (color : NamedColor)
  | mixed (color : Color)

namespace Ink

/-- The code that a color has as text; as a ground it is larger by ten. -/
def code (terminal : Terminal) (ground : Nat) : Ink → String
  | named color => toString (color.code + ground)
  | mixed color =>
    if terminal.isFullColor then
      let lead := toString (38 + ground)
      s!"{lead};2;{color.red};{color.green};{color.blue}"
    else toString ((NamedColor.nearest color).code + ground)

end Ink

structure Style where
  bold : Bool := false
  dimmed : Bool := false
  italic : Bool := false
  strikeout : Bool := false
  background : Option Ink := none
  foreground : Option Ink := none

namespace Style

/-- The codes of a style, in the order in which they are written. -/
def codes (terminal : Terminal) (style : Style) : List String :=
  (if style.bold then ["1"] else []) ++ (if style.dimmed then ["2"] else []) ++
    (if style.italic then ["3"] else []) ++ (if style.strikeout then ["9"] else []) ++
    (style.background.map (·.code terminal 10)).toList ++
    (style.foreground.map (·.code terminal 0)).toList

/-- What ends every style. -/
def reset : String := "\x1b[0m"

/-- The text in a style. -/
def paint (terminal : Terminal) (style : Style) (text : String) : String :=
  let codes := style.codes terminal
  if !terminal.isStyled || codes.isEmpty then text
  else
    let lead := "\x1b[" ++ ";".intercalate codes ++ "m"
    lead ++ (reset ++ lead).intercalate (text.splitOn reset) ++ reset

def colored (color : NamedColor) : Style := { foreground := some (.named color) }

/-- The style of a font and colors. -/
def ofAppearance (font : Font) (foreground background : Option Color) : Style where
  bold := font.bold
  italic := font.italic
  strikeout := font.strikeout
  background := background.map .mixed
  foreground := foreground.map .mixed

end Style

end KeyForest
