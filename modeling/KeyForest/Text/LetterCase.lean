import KeyForest.Text.CaseTable

/-!
# Lower case

Names and keywords are compared in ASCII lower case (`lowerAscii`), searched text in full Unicode
lower case (`lower`). The only lower-case form that hangs on its surroundings is that of sigma: at
the end of a word it is the final sigma. The only letter with a two-letter lower-case form is the
dotted capital I.
-/
namespace KeyForest.Text

/-- The text with the ASCII letters in lower case and every other character kept. -/
def lowerAscii (s : String) : String := String.ofList (s.toList.map Char.toLower)

/-- Letters with case that are not passed over as marks. -/
def isCased (c : Char) : Bool := CodeRange.mem casedRanges c.toNat

/-- Marks and punctuation that do not end a word for the choice between the two sigmas. -/
def isCaseIgnorable (c : Char) : Bool := CodeRange.mem ignorableRanges c.toNat

/-- The lower-case form of a character, away from the question of which sigma it is. -/
def lowerChar (c : Char) : List Char :=
  if c.toNat < 0x80 then [c.toLower]
  else if c.toNat = 0x130 then ['i', Char.ofNat 0x307]
  else [((lowerRuns.findSome? (·.lower? c.toNat)).map Char.ofNat).getD c]

/-- Whether the first character that is not case-ignorable is a letter with case. -/
def meetsCased (cs : List Char) : Bool :=
  ((cs.dropWhile isCaseIgnorable).head?.map isCased).getD false

/-- Lower case of `cs`, where `before` holds the characters already passed, nearest first. -/
def lowerAfter (before : List Char) : List Char → List Char
  | [] => []
  | c :: rest =>
    let low :=
      if c = 'Σ' then [if meetsCased before && !meetsCased rest then 'ς' else 'σ'] else lowerChar c
    low ++ lowerAfter (c :: before) rest

/-- The text in lower case. -/
def lower (s : String) : String := String.ofList (lowerAfter [] s.toList)

/-- Whether `part` occurs in `whole`. -/
def containsList (part : List Char) : List Char → Bool
  | [] => part.isEmpty
  | c :: rest => part.isPrefixOf (c :: rest) || containsList part rest

theorem containsList_iff (part whole : List Char) :
    containsList part whole = true ↔ part <:+: whole := by
  induction whole with
  | nil => simp [containsList]
  | cons c rest ih => simp [containsList, ih, List.infix_cons_iff]

/-- Whether `part` occurs in `whole` as a run of consecutive characters. -/
def contains (part whole : String) : Bool := containsList part.toList whole.toList

end KeyForest.Text
