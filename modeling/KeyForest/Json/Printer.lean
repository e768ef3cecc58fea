import KeyForest.Json.Value

/-!
# Writing JSON

Values are written on one line without blanks. Quotes, backslashes and controls are escaped, by a
letter where there is one. A broken text is written as the replacement character.
-/
namespace KeyForest.Json

def hexDigit (n : Nat) : Char := (Nat.toDigits 16 n).headD '0'

/-- The letter by which a character is escaped, if it has one. -/
def escapeLetter? : Char → Option Char
  | '"' => some '"'
  | '\\' => some '\\'
  | '\x08' => some 'b'
  | '\t' => some 't'
  | '\n' => some 'n'
  | '\x0c' => some 'f'
  | '\r' => some 'r'
  | _ => none

def escapeChar (c : Char) : List Char :=
  match escapeLetter? c with
  | some letter => ['\\', letter]
  | none =>
    if c.toNat < 0x20 then
      ['\\', 'u', '0', '0', hexDigit (c.toNat / 16), hexDigit (c.toNat % 16)]
    else [c]

def quote (s : String) : String := String.ofList ('"' :: s.toList.flatMap escapeChar ++ ['"'])

mutual

/-- The value as text. -/
def render : Json → String
  | .null => "null"
  | .boolean value => if value then "true" else "false"
  | .number spelling => spelling
  | .text value => quote value
  | .brokenText => quote "\uFFFD"
  | .list items => "[" ++ ",".intercalate (renderItems items) ++ "]"
  | .object members => "\x7b" ++ ",".intercalate (renderMembers members) ++ "\x7d"

def renderItems : List Json → List String
  | [] => []
  | item :: rest => render item :: renderItems rest

def renderMembers : List (Option String × Json) → List String
  | [] => []
  | (name, value) :: rest =>
    (quote (name.getD "\uFFFD") ++ ":" ++ render value) :: renderMembers rest

end

end KeyForest.Json
