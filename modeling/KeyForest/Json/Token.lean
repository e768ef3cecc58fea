import KeyForest.Text.Digits

/-!
# Lexemes of JSON

`Lexer.run` cuts a text into lexemes in one pass, one character at a time. Blanks between lexemes
are the space, the tab, the line feed and the carriage return. In a quoted text controls must be
escaped; escapes are collected as UTF-16 units and joined at the closing quote.
-/
namespace KeyForest.Json

inductive Token where
  | openList
  | closeList
  | openObject
  | closeObject
  | comma
  | colon
  /-- A quoted text, if its escapes name a text. -/
  | quoted (value : Option String)
  | number (spelling : String)
  | boolean (value : Bool)
  | null
deriving DecidableEq, Repr

/-! ### Numbers and words -/

/-- Passes over digits, of which there must be one. -/
def digits1 (cs : List Char) : Option (List Char) :=
  match cs with
  | c :: rest => if c.isDigit then some (rest.dropWhile Char.isDigit) else none
  | [] => none

/-- Whether the rest of a number is an exponent or nothing. -/
def endsNumber : List Char → Bool
  | [] => true
  | 'e' :: '+' :: rest | 'e' :: '-' :: rest | 'E' :: '+' :: rest | 'E' :: '-' :: rest =>
    digits1 rest == some []
  | 'e' :: rest | 'E' :: rest => digits1 rest == some []
  | _ => false

/-- Whether the characters are a number without sign. -/
def isUnsigned (cs : List Char) : Bool :=
  let whole : Option (List Char) :=
    match cs with
    | '0' :: rest => some rest
    | _ => digits1 cs
  match whole with
  | some ('.' :: rest) => ((digits1 rest).map endsNumber).getD false
  | some rest => endsNumber rest
  | none => false

def isNumber : List Char → Bool
  | '-' :: rest => isUnsigned rest
  | cs => isUnsigned cs

/-- The lexeme that a run of letters, digits and number signs makes. -/
def Token.ofWord (word : List Char) : Option Token :=
  if word = "true".toList then some (.boolean true)
  else if word = "false".toList then some (.boolean false)
  else if word = "null".toList then some .null
  else if isNumber word then some (.number (String.ofList word))
  else none

/-! ### Quoted texts -/

/-- Joins UTF-16 units and code points to a text; a surrogate needs its partner next to it. -/
def joinUnits : List Nat → Option (List Char)
  | [] => some []
  | [a] => if 0xD800 ≤ a ∧ a < 0xE000 then none else some [Char.ofNat a]
  | a :: b :: rest =>
    if 0xD800 ≤ a ∧ a < 0xDC00 then
      if 0xDC00 ≤ b ∧ b < 0xE000 then
        (joinUnits rest).map (Char.ofNat (0x10000 + (a - 0xD800) * 0x400 + (b - 0xDC00)) :: ·)
      else none
    else if 0xDC00 ≤ a ∧ a < 0xE000 then none
    else (joinUnits (b :: rest)).map (Char.ofNat a :: ·)

/-- The code point that a one-letter escape stands for. -/
def shortEscape? : Char → Option Nat
  | '"' => some 0x22
  | '\\' => some 0x5C
  | '/' => some 0x2F
  | 'b' => some 0x8
  | 'f' => some 0xC
  | 'n' => some 0xA
  | 'r' => some 0xD
  | 't' => some 0x9
  | _ => none

/-! ### The pass over the text -/

/-- Where the pass stands within a lexeme. -/
inductive Mode where
  | between
  /-- In a word or number; the characters so far, last first. -/
  | word (chars : List Char)
  /-- In a quoted text; the units so far, last first. -/
  | quoted (units : List Nat)
  | escape (units : List Nat)
  /-- In a numeric escape with `left` digits to come. -/
  | hex (units : List Nat) (left value : Nat)

structure Lexer where
  mode : Mode
  /-- The lexemes so far, last first. -/
  tokens : List Token

namespace Lexer

def start : Lexer := ⟨.between, []⟩

def isWordChar (c : Char) : Bool := c.isAlphanum || c == '-' || c == '+' || c == '.'

def emit (lexer : Lexer) (token : Token) : Lexer := ⟨.between, token :: lexer.tokens⟩

/-- Takes a character that belongs to no lexeme begun before it. -/
def begin (lexer : Lexer) (c : Char) : Option Lexer :=
  match c with
  | '[' => some (lexer.emit .openList)
  | ']' => some (lexer.emit .closeList)
  | '\x7b' => some (lexer.emit .openObject)
  | '\x7d' => some (lexer.emit .closeObject)
  | ',' => some (lexer.emit .comma)
  | ':' => some (lexer.emit .colon)
  | '"' => some { lexer with mode := .quoted [] }
  | ' ' | '\t' | '\n' | '\r' => some lexer
  | _ => if isWordChar c then some { lexer with mode := .word [c] } else none

/-- Ends a word or number. -/
def endWord (lexer : Lexer) (chars : List Char) : Option Lexer :=
  (Token.ofWord chars.reverse).map lexer.emit

def step (lexer : Lexer) (c : Char) : Option Lexer :=
  match lexer.mode with
  | .between => lexer.begin c
  | .word chars =>
    if isWordChar c then some { lexer with mode := .word (c :: chars) }
    else (lexer.endWord chars).bind (·.begin c)
  | .quoted units =>
    if c = '"' then some (lexer.emit (.quoted ((joinUnits units.reverse).map String.ofList)))
    else if c = '\\' then some { lexer with mode := .escape units }
    else if c.toNat < 0x20 then none
    else some { lexer with mode := .quoted (c.toNat :: units) }
  | .escape units =>
    if c = 'u' then some { lexer with mode := .hex units 4 0 }
    else (shortEscape? c).map fun unit => { lexer with mode := .quoted (unit :: units) }
  | .hex units left value =>
    (Text.hexValue? c).map fun digit =>
      let value := 16 * value + digit
      { lexer with
        mode := if left ≤ 1 then .quoted (value :: units) else .hex units (left - 1) value }

/-- The lexemes once the text has ended. -/
def finish (lexer : Lexer) : Option (List Token) :=
  match lexer.mode with
  | .between => some lexer.tokens.reverse
  | .word chars => (lexer.endWord chars).map (·.tokens.reverse)
  | _ => none

/-- The lexemes of a text. -/
def run (s : String) : Option (List Token) := (s.toList.foldlM step start).bind finish

end Lexer

end KeyForest.Json
