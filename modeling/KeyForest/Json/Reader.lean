import KeyForest.Json.Token
import KeyForest.Json.Value

/-!
# Reading JSON

`Json.parse` reads exactly one value. The values that have been begun are kept on a stack of
frames, so that the depth of a text is bounded by its length only.
-/
namespace KeyForest.Json

/-- A list or object that has been begun; what it holds already stands last first. -/
inductive Frame where
  | list (items : List Json)
  /-- An object in which the value of the member `name` is under way. -/
  | object (members : List (Option String × Json)) (name : Option String)

/-- What may come next. -/
inductive Expect where
  | value
  /-- A value or the end of the list just begun. -/
  | firstItem
  /-- A name or the end of the object just begun. -/
  | firstName
  | name (members : List (Option String × Json))
  | colon (members : List (Option String × Json)) (name : Option String)
  /-- A comma or the end of the innermost frame. -/
  | more (last : Json)

structure Builder where
  stack : List Frame
  expect : Expect

namespace Builder

def start : Builder := ⟨[], .value⟩

/-- Ends the innermost frame, of which `last` is the last value. -/
def close (stack : List Frame) (last : Json) (isList : Bool) : Option Builder :=
  match stack, isList with
  | .list items :: stack, true => some ⟨stack, .more (.list (last :: items).reverse)⟩
  | .object members name :: stack, false =>
    some ⟨stack, .more (.object ((name, last) :: members).reverse)⟩
  | _, _ => none

/-- Takes the lexeme with which a value begins. -/
def beginValue (stack : List Frame) : Token → Option Builder
  | .openList => some ⟨.list [] :: stack, .firstItem⟩
  | .openObject => some ⟨stack, .firstName⟩
  | .quoted (some value) => some ⟨stack, .more (.text value)⟩
  | .quoted none => some ⟨stack, .more .brokenText⟩
  | .number spelling => some ⟨stack, .more (.number spelling)⟩
  | .boolean value => some ⟨stack, .more (.boolean value)⟩
  | .null => some ⟨stack, .more .null⟩
  | _ => none

def step (builder : Builder) (token : Token) : Option Builder :=
  match builder.expect, token with
  | .value, _ => beginValue builder.stack token
  | .firstItem, .closeList => some ⟨builder.stack.tail, .more (.list [])⟩
  | .firstItem, _ => beginValue builder.stack token
  | .firstName, .closeObject => some ⟨builder.stack, .more (.object [])⟩
  | .firstName, .quoted name => some ⟨builder.stack, .colon [] name⟩
  | .name members, .quoted name => some ⟨builder.stack, .colon members name⟩
  | .colon members name, .colon => some ⟨.object members name :: builder.stack, .value⟩
  | .more last, .closeList => close builder.stack last true
  | .more last, .closeObject => close builder.stack last false
  | .more last, .comma =>
    match builder.stack with
    | .list items :: stack => some ⟨.list (last :: items) :: stack, .value⟩
    | .object members name :: stack => some ⟨stack, .name ((name, last) :: members)⟩
    | [] => none
  | _, _ => none

/-- The value, once the text has ended. -/
def finish (builder : Builder) : Option Json :=
  match builder.stack, builder.expect with
  | [], .more value => some value
  | _, _ => none

end Builder

/-- The one value that the text holds. -/
def parse (s : String) : Option Json := do
  let tokens ← Lexer.run s
  let builder ← tokens.foldlM Builder.step Builder.start
  builder.finish

end KeyForest.Json
