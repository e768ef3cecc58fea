import KeyForest.Text.Digits

/-!
# Blanks, comments and texts of TOML

Readers take the characters that are left and answer what they read together with the characters
left after it, or nothing if the document is malformed there.
-/
namespace KeyForest.Toml

abbrev Reader (α : Type) := List Char → Option (α × List Char)

def isSpace (c : Char) : Bool := c = ' ' || c = '\t'

/-- Passes over spaces and tabs. -/
def skipSpaces (cs : List Char) : List Char := cs.dropWhile isSpace

/-- The characters that may stand in a comment or in a text: all but controls, and the tab. -/
def isTextChar (c : Char) : Bool := c = '\t' || (0x20 ≤ c.toNat && c.toNat ≠ 0x7F)

/-- Passes over one line end. -/
def skipNewline? : List Char → Option (List Char)
  | '\n' :: rest => some rest
  | '\r' :: '\n' :: rest => some rest
  | _ => none

/-- Passes over spaces and a comment to the end of the line or of the document. -/
def endLine (cs : List Char) : Option (List Char) :=
  let cs := match skipSpaces cs with
    | '#' :: rest => rest.dropWhile isTextChar
    | rest => rest
  if cs.isEmpty then some [] else skipNewline? cs

/-- Passes over spaces, line ends and comments. -/
def skipTrivia (inComment : Bool) : List Char → List Char
  | [] => []
  | c :: rest =>
    if inComment && isTextChar c then skipTrivia true rest
    else if isSpace c || c = '\n' || (c = '\r' && rest.head? = some '\n') then skipTrivia false rest
    else if c = '#' then skipTrivia true rest
    else c :: rest

/-- Passes over spaces and line ends. -/
def skipBlankLines : List Char → List Char
  | [] => []
  | c :: rest =>
    if isSpace c || c = '\n' || (c = '\r' && rest.head? = some '\n') then skipBlankLines rest
    else c :: rest

/-! ### Quoted texts -/

/-- Reads a code point of exactly `width` hexadecimal digits. -/
def readCodePoint (width : Nat) : Reader Char := fun cs => do
  let digits := cs.take width
  if digits.length = width then
    let n ← digits.foldlM (fun n c => (Text.hexValue? c).map (16 * n + ·)) 0
    if n < 0xD800 ∨ (0xE000 ≤ n ∧ n < 0x110000) then some (Char.ofNat n, cs.drop width) else none
  else none

/-- Reads what follows a backslash. -/
def readEscape : Reader Char
  | 'b' :: rest => some ('\x08', rest)
  | 't' :: rest => some ('\t', rest)
  | 'n' :: rest => some ('\n', rest)
  | 'f' :: rest => some ('\x0c', rest)
  | 'r' :: rest => some ('\r', rest)
  | '"' :: rest => some ('"', rest)
  | '\\' :: rest => some ('\\', rest)
  | 'u' :: rest => readCodePoint 4 rest
  | 'U' :: rest => readCodePoint 8 rest
  | _ => none

/-- Reads the rest of a text with escapes on one line; `read` holds what is read, last first. -/
def readBasic : (steps : Nat) → (read : List Char) → Reader String
  | steps + 1, read, c :: rest =>
    if c = '"' then some (String.ofList read.reverse, rest)
    else if c = '\\' then do
      let (c, rest) ← readEscape rest
      readBasic steps (c :: read) rest
    else if isTextChar c then readBasic steps (c :: read) rest
    else none
  | _, _, _ => none

/-- Reads the rest of a text without escapes on one line. -/
def readLiteral (cs : List Char) : Option (String × List Char) :=
  match cs.span fun c => isTextChar c && c ≠ '\'' with
  | (text, '\'' :: rest) => some (String.ofList text, rest)
  | _ => none

/-- Reads the rest of a text over several lines. It ends at three quotes, before which there may be
one or two more that belong to the text. With `escapes`, a backslash before a line end removes the
blanks up to the next visible character. -/
def readLines (quote : Char) (escapes : Bool) : (steps : Nat) → (read : List Char) → Reader String
  | steps + 1, read, c :: rest =>
    if c = quote then
      let quotes := (c :: rest).takeWhile (· = quote)
      if quotes.length < 3 then readLines quote escapes steps (c :: read) rest
      else
        let own := min (quotes.length - 3) 2
        some (String.ofList (read.reverse ++ List.replicate own quote), rest.drop (own + 2))
    else if escapes && c = '\\' then
      match skipNewline? (skipSpaces rest) with
      | some rest => readLines quote escapes steps read (skipBlankLines rest)
      | none => do
        let (c, rest) ← readEscape rest
        readLines quote escapes steps (c :: read) rest
    else
      match skipNewline? (c :: rest) with
      | some rest => readLines quote escapes steps ('\n' :: read) rest
      | none => if isTextChar c then readLines quote escapes steps (c :: read) rest else none
  | _, _, _ => none

/-- Reads the rest of a text over several lines; a line end right at its start is dropped. -/
def readLinesFrom (quote : Char) (escapes : Bool) : Reader String := fun cs =>
  readLines quote escapes (cs.length + 1) [] ((skipNewline? cs).getD cs)

/-- Reads a text on one line, quote included. -/
def readQuoted : Reader String
  | '"' :: rest => readBasic (rest.length + 1) [] rest
  | '\'' :: rest => readLiteral rest
  | _ => none

/-- Reads a text in any of its four forms. -/
def readText : Reader String
  | '"' :: '"' :: '"' :: rest => readLinesFrom '"' true rest
  | '\'' :: '\'' :: '\'' :: rest => readLinesFrom '\'' false rest
  | cs => readQuoted cs

/-! ### Names -/

def isBareChar (c : Char) : Bool := c.isAlphanum || c = '-' || c = '_'

/-- Reads one name, bare or quoted. -/
def readName (cs : List Char) : Option (String × List Char) :=
  match cs with
  | '"' :: _ | '\'' :: _ => readQuoted cs
  | _ =>
    let name := cs.takeWhile isBareChar
    if name.isEmpty then none else some (String.ofList name, cs.drop name.length)

/-- Reads names with points between them; `read` holds those already read, last first. -/
def readPathFrom : (steps : Nat) → (read : List String) → Reader (List String)
  | steps + 1, read, cs => do
    let (name, rest) ← readName (skipSpaces cs)
    match skipSpaces rest with
    | '.' :: rest => readPathFrom steps (name :: read) rest
    | rest => some ((name :: read).reverse, rest)
  | 0, _, _ => none

/-- The depth to which paths and values may go. -/
def depthLimit : Nat := 80

/-- Reads a path of names, with spaces around it; it must be shorter than the depth limit. -/
def readPath : Reader (List String) := readPathFrom (depthLimit - 1) []

end KeyForest.Toml
