/-!
# JSON values

A number keeps its spelling. A text whose escapes name no text, because a surrogate stands without
its partner, is a value nonetheless: it may stand wherever nobody looks at it.
-/
namespace KeyForest

inductive Json where
  | null
  | boolean (value : Bool)
  | number (spelling : String)
  | text (value : String)
  /-- A text with an unpaired surrogate. -/
  | brokenText
  | list (items : List Json)
  /-- The members in the order in which they are written; a name may be a broken text. -/
  | object (members : List (Option String × Json))
deriving Inhabited

namespace Json

/-- The object with these members. -/
def ofFields (fields : List (String × Json)) : Json :=
  .object (fields.map fun (name, value) => (some name, value))

/-- The value of the last member of that name. -/
def field? (name : String) : Json → Option Json
  | .object members => (members.reverse.find? fun m => m.1 == some name).map (·.2)
  | _ => none

/-- The items of a list. -/
def items? : Json → Option (List Json)
  | .list items => some items
  | _ => none

def text? : Json → Option String
  | .text value => some value
  | _ => none

def boolean? : Json → Option Bool
  | .boolean value => some value
  | _ => none

/-- The whole number that is written without fraction and exponent. -/
def integer? : Json → Option Int
  | .number spelling => spelling.toInt?
  | _ => none

def ofNat (n : Nat) : Json := .number (toString n)

def ofInt (n : Int) : Json := .number (toString n)

def ofOption {α : Type} (encode : α → Json) : Option α → Json
  | some a => encode a
  | none => .null

def ofList {α : Type} (encode : α → Json) (items : List α) : Json := .list (items.map encode)

end Json

end KeyForest
